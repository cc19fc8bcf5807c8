import Synopsis.Frequency.HeavyHitters
import Synopsis.Proofs.Frequency.HeapBounds

/-! Heap order, and what restores it. An entry that may be less than its parent alone is sifted up, one
that its children alone may be less than is sifted down; on the way the rest of the order is kept, and
the neighbours of the place that is out of order stay in order with each other. -/
namespace Synopsis.Frequency.MinHeap

variable {α : Type} {less : α → α → Bool}

/-- The comparison of entries by ranks, which some of them may share. -/
structure Ranks (less : α → α → Bool) : Prop where
  asymm {a b : α} (before : less a b = true) : less b a = false
  trans {a b c : α} (first : less b a = false) (second : less c b = false) : less c a = false

/-- None of the first `len` entries is less than the one at its parent. -/
def Ordered (less : α → α → Bool) (heap : Array α) (len : Nat) : Prop :=
  ∀ i < len, lessAt less heap i ((i - 1) / 2) = false

/-- The whole array is in heap order. -/
def IsHeap (less : α → α → Bool) (heap : Array α) : Prop := Ordered less heap heap.size

instance (heap : Array α) : Decidable (IsHeap less heap) := Nat.decidableBallLT _ _

section Places
variable {heap : Array α} {i j k : Nat}

theorem lessAt_eq_true :
    lessAt less heap i j = true ↔ ∃ a b, heap[i]? = some a ∧ heap[j]? = some b ∧ less a b = true := by
  rw [lessAt]
  cases heap[i]? <;> cases heap[j]? <;> simp

theorem lessAt_eq_false :
    lessAt less heap i j = false ↔ ∀ a b, heap[i]? = some a → heap[j]? = some b → less a b = false := by
  rw [lessAt]
  cases heap[i]? <;> cases heap[j]? <;> simp

theorem lessAt_past (outside : heap.size ≤ i) : lessAt less heap i j = false := by
  simp only [lessAt, Array.getElem?_eq_none outside]

theorem lt_size_of_lessAt (before : lessAt less heap i j = true) : i < heap.size ∧ j < heap.size := by
  obtain ⟨a, b, first, second, -⟩ := lessAt_eq_true.mp before
  exact ⟨(Array.getElem?_eq_some_iff.mp first).1, (Array.getElem?_eq_some_iff.mp second).1⟩

theorem lessAt_congr {other : Array α} {i' j' : Nat} (first : heap[i]? = other[i']?) (second : heap[j]? = other[j']?) :
    lessAt less heap i j = lessAt less other i' j' := by
  rw [lessAt, lessAt, first, second]

theorem getElem?_swap (hi : i < heap.size) (hj : j < heap.size) (k : Nat) :
    (heap.swapIfInBounds i j)[k]? = heap[Equiv.swap i j k]? := by
  rw [Array.swapIfInBounds_def, dif_pos hi, dif_pos hj, Array.getElem?_swap, ← Array.getElem?_eq_getElem hi,
    ← Array.getElem?_eq_getElem hj]
  by_cases second : j = k
  · subst second
    rw [if_pos rfl, Equiv.swap_apply_right]
  · by_cases first : i = k
    · subst first
      rw [if_neg second, if_pos rfl, Equiv.swap_apply_left]
    · rw [if_neg second, if_neg first, Equiv.swap_apply_of_ne_of_ne (Ne.symm first) (Ne.symm second)]

/-- Comparing after an exchange is comparing at the exchanged places. -/
theorem lessAt_swap (hi : i < heap.size) (hj : j < heap.size) (p q : Nat) :
    lessAt less (heap.swapIfInBounds i j) p q = lessAt less heap (Equiv.swap i j p) (Equiv.swap i j q) :=
  lessAt_congr (getElem?_swap hi hj p) (getElem?_swap hi hj q)

variable (ranks : Ranks less)
include ranks

theorem Ranks.lessAt_asymm (before : lessAt less heap i j = true) : lessAt less heap j i = false := by
  obtain ⟨a, b, first, second, less⟩ := lessAt_eq_true.mp before
  refine lessAt_eq_false.mpr fun b' a' second' first' => ?_
  rw [second, Option.some.injEq] at second'
  rw [first, Option.some.injEq] at first'
  exact second' ▸ first' ▸ ranks.asymm less

theorem Ranks.lessAt_self (heap : Array α) (i : Nat) : lessAt less heap i i = false := by
  by_contra before
  rw [Bool.not_eq_false] at before
  exact absurd (before.symm.trans (ranks.lessAt_asymm before)) (by decide)

theorem Ranks.lessAt_trans (inside : j < heap.size) (first : lessAt less heap j i = false)
    (second : lessAt less heap k j = false) : lessAt less heap k i = false := by
  have middle : heap[j]? = some heap[j] := Array.getElem?_eq_getElem inside
  exact lessAt_eq_false.mpr fun c a atK atI =>
    ranks.trans (lessAt_eq_false.mp first _ a middle atI) (lessAt_eq_false.mp second c _ atK middle)

end Places

/-- The order holds, but perhaps between the entry at one place and its parent. -/
structure Rising (less : α → α → Bool) (heap : Array α) (child : Nat) : Prop where
  others (i : Nat) (other : i ≠ child) : lessAt less heap i ((i - 1) / 2) = false
  /-- The entries below the place are in order with its parent. -/
  below (inner : 0 < child) (i : Nat) (under : (i - 1) / 2 = child) : lessAt less heap i ((child - 1) / 2) = false

/-- The order holds among the first entries, but perhaps between the entry at one place and its
children. -/
structure Sinking (less : α → α → Bool) (heap : Array α) (len parent : Nat) : Prop where
  others (i : Nat) (inside : i < len) (other : (i - 1) / 2 ≠ parent) : lessAt less heap i ((i - 1) / 2) = false
  /-- The entries below the place are in order with its parent. -/
  below (inner : 0 < parent) (i : Nat) (inside : i < len) (under : (i - 1) / 2 = parent) :
    lessAt less heap i ((parent - 1) / 2) = false

section Sifts
variable {heap : Array α} {len i parent child : Nat}

theorem lesserChild_parent (less : α → α → Bool) (heap : Array α) (parent len : Nat) :
    (lesserChild less heap parent len - 1) / 2 = parent := by
  rw [lesserChild]
  split <;> omega

theorem Rising.settle (h : Rising less heap child) (stop : lessAt less heap child ((child - 1) / 2) = false)
    (i : Nat) : lessAt less heap i ((i - 1) / 2) = false := by
  by_cases self : i = child
  · exact self ▸ stop
  · exact h.others i self

variable (ranks : Ranks less)
include ranks

theorem Rising.exchange (h : Rising less heap child) (inner : child ≠ 0)
    (before : lessAt less heap child ((child - 1) / 2) = true) :
    Rising less (heap.swapIfInBounds child ((child - 1) / 2)) ((child - 1) / 2) := by
  obtain ⟨here, there⟩ := lt_size_of_lessAt before
  have after := ranks.lessAt_asymm before
  have below := h.below (Nat.pos_of_ne_zero inner)
  generalize up : (child - 1) / 2 = parent at *
  have under_parent (i : Nat) (other : i ≠ child) (under : (i - 1) / 2 = parent) :
      lessAt less heap i parent = false := under ▸ h.others i other
  constructor
  case others =>
    intro i other
    rw [lessAt_swap here there]
    by_cases self : i = child
    · rwa [self, up, Equiv.swap_apply_left, Equiv.swap_apply_right]
    · rw [Equiv.swap_apply_of_ne_of_ne self other]
      by_cases under : (i - 1) / 2 = child
      · rw [under, Equiv.swap_apply_left]
        exact below i under
      · by_cases beside : (i - 1) / 2 = parent
        · -- a sibling is not less than the parent was, and so not less than the child
          rw [beside, Equiv.swap_apply_right]
          exact ranks.lessAt_trans there after (under_parent i self beside)
        · rw [Equiv.swap_apply_of_ne_of_ne under beside]
          exact h.others i self
  case below =>
    intro deep i under
    have ordered := h.others parent (by omega)
    rw [lessAt_swap here there, Equiv.swap_apply_of_ne_of_ne (x := (parent - 1) / 2) (by omega) (by omega)]
    by_cases self : i = child
    · rwa [self, Equiv.swap_apply_left]
    · rw [Equiv.swap_apply_of_ne_of_ne self (by omega)]
      exact ranks.lessAt_trans there ordered (under_parent i self under)

/-- Sifting up ends in heap order. -/
theorem Rising.siftUp (h : Rising less heap child) (i : Nat) :
    lessAt less (siftUp less heap child) i ((i - 1) / 2) = false := by
  induction heap, child using siftUp.induct less with
  | case1 heap =>
    rw [MinHeap.siftUp, if_pos rfl]
    exact h.settle (ranks.lessAt_self heap 0) i
  | case2 heap child inner parent before ih =>
    rw [MinHeap.siftUp, if_neg inner, if_pos before]
    exact ih (h.exchange ranks inner before)
  | case3 heap child inner parent ordered =>
    rw [MinHeap.siftUp, if_neg inner, if_neg ordered]
    exact h.settle (Bool.eq_false_iff.mpr ordered) i

/-- No other child is less. -/
theorem lesserChild_least (heap : Array α) (inside : i < len) (inner : 0 < i) (under : (i - 1) / 2 = parent) :
    lessAt less heap i (lesserChild less heap parent len) = false := by
  have places : i = 2 * parent + 1 ∨ i = 2 * parent + 1 + 1 := by omega
  simp only [lesserChild]
  split
  next right =>
    simp only [Bool.and_eq_true, decide_eq_true_eq] at right
    rcases places with rfl | rfl
    · exact ranks.lessAt_asymm right.2
    · exact ranks.lessAt_self heap _
  next left =>
    simp only [Bool.and_eq_true, decide_eq_true_eq, not_and, Bool.not_eq_true] at left
    rcases places with rfl | rfl
    · exact ranks.lessAt_self heap _
    · exact left inside

theorem Sinking.exchange (h : Sinking less heap len parent) (inner : 2 * parent + 1 < len)
    (before : lessAt less heap (lesserChild less heap parent len) parent = true) :
    Sinking less (heap.swapIfInBounds parent (lesserChild less heap parent len)) len
      (lesserChild less heap parent len) := by
  obtain ⟨there, here⟩ := lt_size_of_lessAt before
  have after := ranks.lessAt_asymm before
  have least (i : Nat) (inside : i < len) (inner : 0 < i) (under : (i - 1) / 2 = parent) :=
    lesserChild_least ranks heap inside inner under
  have inside : lesserChild less heap parent len < len := lesserChild_lt inner
  have deeper := lt_lesserChild less heap parent len
  have up := lesserChild_parent less heap parent len
  generalize lesserChild less heap parent len = child at *
  constructor
  case others =>
    intro i within other
    rw [lessAt_swap here there]
    by_cases self : i = child
    · rwa [self, up, Equiv.swap_apply_right, Equiv.swap_apply_left]
    · by_cases top : i = parent
      · subst top
        rw [Equiv.swap_apply_left]
        by_cases root : i = 0
        · subst root
          exact ranks.lessAt_self heap _
        · rw [Equiv.swap_apply_of_ne_of_ne (by omega) other]
          exact h.below (by omega) child inside up
      · rw [Equiv.swap_apply_of_ne_of_ne top self]
        by_cases under : (i - 1) / 2 = parent
        · rw [under, Equiv.swap_apply_left]
          exact least i within (by omega) under
        · rw [Equiv.swap_apply_of_ne_of_ne under other]
          exact h.others i within under
  case below =>
    intro _ i within under
    have ordered := h.others i within (by omega)
    rwa [lessAt_swap here there, up, Equiv.swap_apply_left, Equiv.swap_apply_of_ne_of_ne (by omega) (by omega),
      ← under]

/-- Sifting down ends in heap order. -/
theorem Sinking.siftDown (h : Sinking less heap len parent) (short : len ≤ heap.size) :
    Ordered less (siftDown less heap parent len) len := by
  induction heap, parent using siftDown.induct less len with
  | case1 heap parent inner child before ih =>
    rw [MinHeap.siftDown, if_pos inner, if_pos before]
    exact ih (h.exchange ranks inner before) (by rwa [Array.size_swapIfInBounds])
  | case2 heap parent inner child ordered =>
    rw [MinHeap.siftDown, if_pos inner, if_neg ordered]
    intro i inside
    by_cases under : (i - 1) / 2 = parent
    · by_cases root : i = 0
      · subst root
        exact ranks.lessAt_self heap 0
      · have least := lesserChild_least ranks heap inside (Nat.pos_of_ne_zero root) under
        rw [under]
        exact ranks.lessAt_trans ((lesserChild_lt inner).trans_le short) (Bool.eq_false_iff.mpr ordered) least
    · exact h.others i inside under
  | case3 heap parent leaf =>
    rw [MinHeap.siftDown, if_neg leaf]
    intro i inside
    by_cases under : (i - 1) / 2 = parent
    · obtain rfl : i = 0 := by omega
      exact ranks.lessAt_self heap 0
    · exact h.others i inside under

end Sifts

section Primitives
variable {heap : Array α} (ranks : Ranks less)
include ranks

theorem IsHeap.push (h : IsHeap less heap) (a : α) : IsHeap less (push less heap a) := by
  have old {i : Nat} (inside : i < heap.size) : (heap.push a)[i]? = heap[i]? := by
    rw [Array.getElem?_push, if_neg (Nat.ne_of_lt inside)]
  have rising : Rising less (heap.push a) heap.size := by
    constructor
    case others =>
      intro i other
      rcases Nat.lt_or_ge i heap.size with inside | outside
      · rw [lessAt_congr (old inside) (old (by omega))]
        exact h i inside
      · exact lessAt_past (by rw [Array.size_push]; omega)
    case below => exact fun _ i _ => lessAt_past (by rw [Array.size_push]; omega)
  exact fun i _ => rising.siftUp ranks i

theorem IsHeap.pop (h : IsHeap less heap) : IsHeap less (pop less heap) := by
  intro i inside
  rw [size_pop] at inside
  let last := heap.size - 1
  let swapped := heap.swapIfInBounds 0 last
  have sinking : Sinking less swapped last 0 := by
    constructor
    case others =>
      intro i before other
      rw [lessAt_swap (by omega) (by omega), Equiv.swap_apply_of_ne_of_ne (by omega) (by omega),
        Equiv.swap_apply_of_ne_of_ne other (by omega)]
      exact h i (by omega)
    case below => exact fun inner => absurd inner (Nat.lt_irrefl 0)
  have ordered : Ordered less (siftDown less swapped 0 last) last :=
    sinking.siftDown ranks (by rw [Array.size_swapIfInBounds]; exact Nat.sub_le ..)
  have kept {j : Nat} (before : j < last) : (MinHeap.pop less heap)[j]? = (siftDown less swapped 0 last)[j]? := by
    rw [MinHeap.pop, Array.getElem?_pop, size_siftDown, Array.size_swapIfInBounds, if_pos before]
  rw [lessAt_congr (kept inside) (kept (by omega))]
  exact ordered i inside

/-- The entry at the root is a least one. -/
theorem IsHeap.root_least (h : IsHeap less heap) (i : Nat) : lessAt less heap i 0 = false := by
  induction i using Nat.strong_induction_on with
  | _ i ih =>
    rcases Nat.lt_or_ge i heap.size with inside | outside
    · by_cases root : i = 0
      · exact root ▸ ranks.lessAt_self heap i
      · exact ranks.lessAt_trans (by omega) (ih ((i - 1) / 2) (by omega)) (h i inside)
    · exact lessAt_past outside

theorem IsHeap.root_least_of_mem (h : IsHeap less heap) {root a : α} (top : heap[0]? = some root)
    (member : a ∈ entries heap) : less a root = false := by
  obtain ⟨i, inside, rfl⟩ := Array.mem_iff_getElem.mp (mem_entries.mp member)
  exact lessAt_eq_false.mp (h.root_least ranks i) _ _ (Array.getElem?_eq_getElem inside) top

end Primitives
end MinHeap

open MinHeap

theorem Entry.less_eq_true {a b : Entry} :
    a.less b = true ↔ a.frequency < b.frequency ∨ a.frequency = b.frequency ∧ a.moment < b.moment := by
  simp only [Entry.less, Bool.or_eq_true, Bool.and_eq_true, decide_eq_true_eq]

theorem Entry.less_eq_false {a b : Entry} :
    a.less b = false ↔ b.frequency < a.frequency ∨ b.frequency = a.frequency ∧ b.moment ≤ a.moment := by
  rw [← Bool.not_eq_true, Entry.less_eq_true]
  simp only [UInt64.lt_iff_toNat_lt, ← UInt64.toNat_inj]
  omega

theorem Entry.ranks : Ranks Entry.less where
  asymm before := by
    rw [Entry.less_eq_true] at before
    rw [Entry.less_eq_false]
    exact before.imp_right fun tie => ⟨tie.1, tie.2.le⟩
  trans first second := by
    rw [Entry.less_eq_false] at *
    simp only [UInt64.lt_iff_toNat_lt, ← UInt64.toNat_inj] at *
    omega

namespace MinHeap

/-- In a heap whose entries have different moments the root precedes every other entry. -/
theorem IsHeap.root_precedes {heap : Array Entry} (h : IsHeap Entry.less heap)
    (distinct : ((entries heap).map Entry.moment).Nodup) {root e : Entry} (top : heap[0]? = some root)
    (left : e ∈ entries (MinHeap.pop Entry.less heap)) :
    root.frequency < e.frequency ∨ root.frequency = e.frequency ∧ root.moment < e.moment := by
  have split : entries heap = root ::ₘ entries (MinHeap.pop Entry.less heap) := entries_pop top
  rw [split, Multiset.map_cons, Multiset.nodup_cons] at distinct
  have apart : root.moment ≠ e.moment := fun same => distinct.1 (same ▸ Multiset.mem_map_of_mem Entry.moment left)
  have least := h.root_least_of_mem Entry.ranks top (split ▸ Multiset.mem_cons_of_mem left)
  exact (Entry.less_eq_false.mp least).imp_right fun tie => ⟨tie.1, lt_of_le_of_ne tie.2 apart⟩

/-- In a heap whose entries have different moments, pushing keeps the order, and so does popping, which takes out the
entry that precedes all others, the oldest among the least frequent. On any array, in order or not, sifting and popping
end after as many rounds as places have binary digits, never reach past the end, and only permute the entries, but for
the one that is pushed and the one at the root that is popped. -/
theorem heap_operations_keep_order_and_entries (heap : Array Entry) :
    (((entries heap).map Entry.moment).Nodup → IsHeap Entry.less heap →
      (∀ entry, IsHeap Entry.less (push Entry.less heap entry)) ∧ IsHeap Entry.less (pop Entry.less heap) ∧
      ∀ root, heap[0]? = some root → ∀ e ∈ pop Entry.less heap,
        root.frequency < e.frequency ∨ root.frequency = e.frequency ∧ root.moment < e.moment) ∧
    (∀ entry, entries (push Entry.less heap entry) = entry ::ₘ entries heap) ∧
    (∀ root, heap[0]? = some root → entries heap = root ::ₘ entries (pop Entry.less heap)) ∧
    (∀ child < heap.size, entries (siftUp Entry.less heap child) = entries heap ∧
      ∀ rounds, child < 2 ^ rounds →
        siftUp? Entry.less rounds heap child = some (siftUp Entry.less heap child)) ∧
    (∀ parent, ∀ len ≤ heap.size, entries (siftDown Entry.less heap parent len) = entries heap ∧
      ∀ rounds, len ≤ (parent + 1) * 2 ^ rounds →
        siftDown? Entry.less rounds heap parent len = some (siftDown Entry.less heap parent len)) ∧
    ∀ rounds, heap.size ≤ 2 ^ rounds →
      pop? Entry.less rounds heap = some (heap[0]?, pop Entry.less heap) := by
  refine ⟨fun distinct ordered => ⟨ordered.push Entry.ranks, ordered.pop Entry.ranks, ?_⟩,
    entries_push heap, ?_, ?_, ?_, ?_⟩
  · exact fun root top e left => ordered.root_precedes distinct top (mem_entries.mpr left)
  · exact fun root top => entries_pop top
  · exact fun child inside => ⟨entries_siftUp heap child, fun rounds enough => siftUp?_eq inside enough⟩
  · intro parent len short
    exact ⟨entries_siftDown heap parent len, fun rounds enough => siftDown?_eq short enough⟩
  · exact fun rounds enough => pop?_eq enough

private def entryOf (tag : UInt8) (frequency : UInt64) (moment : Nat) : Entry := ⟨⟨#[tag]⟩, frequency, moment⟩

/-- A heap in which three entries are equally frequent. -/
private def tied : Array Entry :=
  #[entryOf 1 1 0, entryOf 2 1 3, entryOf 3 2 1, entryOf 4 5 2, entryOf 5 1 4]

/-- The same with its root refreshed, which leaves it out of order. -/
private def refreshed : Array Entry := tied.setIfInBounds 0 (entryOf 1 9 5)

theorem tied_entries_stay_in_order :
    ((entries tied).map Entry.moment).Nodup ∧ IsHeap Entry.less tied ∧ tied.size ≤ 2 ^ 3 ∧
    pop Entry.less tied = #[entryOf 2 1 3, entryOf 5 1 4, entryOf 3 2 1, entryOf 4 5 2] ∧
    IsHeap Entry.less (pop Entry.less tied) ∧
    (∀ e ∈ pop Entry.less tied, 1 < e.frequency ∨ 1 = e.frequency ∧ 0 < e.moment) ∧
    IsHeap Entry.less (push Entry.less tied (entryOf 6 1 1)) ∧
    ¬IsHeap Entry.less refreshed ∧ entries refreshed = entryOf 1 9 5 ::ₘ entries (pop Entry.less refreshed) ∧
    siftDown? Entry.less 2 refreshed 1 5 = some (siftDown Entry.less refreshed 1 5) ∧
    siftUp? Entry.less 3 refreshed 4 = some (siftUp Entry.less refreshed 4) := by
  have distinct : ((entries tied).map Entry.moment).Nodup := by decide
  have ordered : IsHeap Entry.less tied := by decide
  obtain ⟨keeps, -, -, -, -, popped⟩ := heap_operations_keep_order_and_entries tied
  obtain ⟨pushes, pops, least⟩ := keeps distinct ordered
  obtain ⟨-, -, taken, up, down, -⟩ := heap_operations_keep_order_and_entries refreshed
  have evaluated : pop? Entry.less 3 tied =
      some (some (entryOf 1 1 0), #[entryOf 2 1 3, entryOf 5 1 4, entryOf 3 2 1, entryOf 4 5 2]) := rfl
  have left := (Prod.mk.inj (Option.some.inj ((popped 3 (by decide)).symm.trans evaluated))).2
  exact ⟨distinct, ordered, by decide, left, pops, least _ rfl, pushes _, by decide, taken _ rfl,
    (down 1 5 (by decide)).2 2 (by decide), (up 4 (by decide)).2 3 (by decide)⟩

end MinHeap
end Synopsis.Frequency
