import Synopsis.Frequency.MinHeap
import Mathlib

/-! The entries of binary heaps: on any array, in heap order or not, sifting only permutes entries,
pushing adds one and popping takes away the one at the root. -/
namespace Synopsis.Frequency.MinHeap

variable {α : Type} {less : α → α → Bool}

/-- The entries of an array regardless of their places. -/
def entries (heap : Array α) : Multiset α := heap.toList

@[simp] theorem mem_entries {heap : Array α} {a : α} : a ∈ entries heap ↔ a ∈ heap := Array.mem_toList_iff

@[simp] theorem card_entries (heap : Array α) : (entries heap).card = heap.size := Array.length_toList

theorem entries_swap (heap : Array α) (i j : Nat) :
    entries (heap.swapIfInBounds i j) = entries heap := by
  apply Multiset.coe_eq_coe.mpr
  unfold Array.swapIfInBounds
  split
  · split
    · exact (Array.swap_perm _ _).toList
    · exact .rfl
  · exact .rfl

theorem entries_siftUp (heap : Array α) (child : Nat) :
    entries (siftUp less heap child) = entries heap := by
  induction heap, child using siftUp.induct less with
  | case1 heap => rw [siftUp, if_pos rfl]
  | case2 heap child inner parent before ih =>
    rw [siftUp, if_neg inner, if_pos before, ih, entries_swap]
  | case3 heap child inner parent ordered => rw [siftUp, if_neg inner, if_neg ordered]

theorem entries_siftDown (heap : Array α) (parent len : Nat) :
    entries (siftDown less heap parent len) = entries heap := by
  induction heap, parent using siftDown.induct less len with
  | case1 heap parent inner child before ih =>
    rw [siftDown, if_pos inner, if_pos before, ih, entries_swap]
  | case2 heap parent inner child ordered => rw [siftDown, if_pos inner, if_neg ordered]
  | case3 heap parent leaf => rw [siftDown, if_neg leaf]

theorem lesserChild_lt {heap : Array α} {parent len : Nat} (inner : 2 * parent + 1 < len) :
    lesserChild less heap parent len < len := by
  simp only [lesserChild]
  split
  · next right => simp only [Bool.and_eq_true, decide_eq_true_eq] at right; omega
  · exact inner

theorem getElem?_swap_of_ge (heap : Array α) {i j len place : Nat} (hi : i < len) (hj : j < len)
    (beyond : len ≤ place) : (heap.swapIfInBounds i j)[place]? = heap[place]? := by
  by_cases h : place < heap.size
  · rw [Array.getElem?_eq_getElem h, Array.getElem?_eq_getElem (by simpa using h)]
    exact congrArg some (Array.getElem_swapIfInBounds_of_ne_of_ne (by omega) (by omega) _)
  · rw [Array.getElem?_eq_none (Nat.le_of_not_lt h), Array.getElem?_eq_none]
    rw [Array.size_swapIfInBounds]
    exact Nat.le_of_not_lt h

/-- Sifting among the first entries leaves the later ones in their places. -/
theorem getElem?_siftDown_of_ge (heap : Array α) (parent : Nat) {len place : Nat}
    (beyond : len ≤ place) : (siftDown less heap parent len)[place]? = heap[place]? := by
  induction heap, parent using siftDown.induct less len with
  | case1 heap parent inner child before ih =>
    rw [siftDown, if_pos inner, if_pos before, ih,
      getElem?_swap_of_ge heap (by omega) (lesserChild_lt inner) beyond]
  | case2 heap parent inner child ordered => rw [siftDown, if_pos inner, if_neg ordered]
  | case3 heap parent leaf => rw [siftDown, if_neg leaf]

theorem entries_concat (heap : Array α) (a : α) : entries (heap.push a) = a ::ₘ entries heap := by
  rw [entries, Array.toList_push]
  exact Multiset.coe_eq_coe.mpr (List.perm_append_singleton a heap.toList)

theorem entries_push (heap : Array α) (a : α) : entries (push less heap a) = a ::ₘ entries heap :=
  (entries_siftUp _ _).trans (entries_concat heap a)

theorem entries_pop_last {heap : Array α} {a : α} (final : heap[heap.size - 1]? = some a) :
    entries heap = a ::ₘ entries heap.pop := by
  obtain ⟨inside, -⟩ := Array.getElem?_eq_some_iff.mp final
  obtain ⟨front, back, rfl⟩ := Array.eq_push_of_size_ne_zero (Nat.ne_zero_of_lt inside)
  have same : back = a := by simpa using final
  rw [entries_concat, Array.pop_push, same]

theorem size_siftDown (heap : Array α) (parent len : Nat) : (siftDown less heap parent len).size = heap.size := by
  rw [← card_entries, entries_siftDown, card_entries]

theorem size_pop (heap : Array α) : (pop less heap).size = heap.size - 1 := by
  rw [pop, Array.size_pop, size_siftDown, Array.size_swapIfInBounds]

/-- The swap puts the root behind the entries that are sifted. -/
theorem getElem?_last_siftDown (heap : Array α) :
    (siftDown less (heap.swapIfInBounds 0 (heap.size - 1)) 0 (heap.size - 1))[heap.size - 1]? = heap[0]? := by
  rw [getElem?_siftDown_of_ge _ _ le_rfl]
  rcases Nat.eq_zero_or_pos heap.size with bare | inside
  · rw [Array.getElem?_eq_none (by rw [Array.size_swapIfInBounds]; omega), Array.getElem?_eq_none (Nat.le_of_eq bare)]
  · rw [Array.getElem?_eq_getElem inside, Array.getElem?_eq_getElem (by rw [Array.size_swapIfInBounds]; omega),
      Array.getElem_swapIfInBounds_right inside]

theorem entries_pop {heap : Array α} {root : α} (top : heap[0]? = some root) :
    entries heap = root ::ₘ entries (pop less heap) := by
  let sifted := siftDown less (heap.swapIfInBounds 0 (heap.size - 1)) 0 (heap.size - 1)
  have same : entries sifted = entries heap := (entries_siftDown ..).trans (entries_swap ..)
  have final : sifted[sifted.size - 1]? = some root := by
    rw [size_siftDown, Array.size_swapIfInBounds, getElem?_last_siftDown, top]
  rw [← same]
  exact entries_pop_last final

end Synopsis.Frequency.MinHeap
