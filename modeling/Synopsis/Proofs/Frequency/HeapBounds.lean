import Synopsis.Proofs.Frequency.HeapEntries

/-! Sifting where every access is checked and the rounds are counted. On any array it ends after as many
rounds as a place has binary digits, finds every entry that it reads or moves, and gives what sifting
without checks gives. -/
namespace Synopsis.Frequency.MinHeap

section Checked
variable {α : Type} (less : α → α → Bool)

/-- Compares two entries, which have to be there. -/
def lessAt? (heap : Array α) (i j : Nat) : Option Bool := do
  let a ← heap[i]?
  let b ← heap[j]?
  return less a b

/-- Exchanges two entries, which have to be there. -/
def swap? (heap : Array α) (i j : Nat) : Option (Array α) :=
  if i < heap.size ∧ j < heap.size then some (heap.swapIfInBounds i j) else none

/-- Sifts up in so many rounds at most. -/
def siftUp? : (rounds : Nat) → Array α → (child : Nat) → Option (Array α)
  | 0, heap, child => if child = 0 then some heap else none
  | rounds + 1, heap, child =>
    if child = 0 then some heap
    else do
      let parent := (child - 1) / 2
      if ← lessAt? less heap child parent then siftUp? rounds (← swap? heap child parent) parent
      else return heap

def lesserChild? (heap : Array α) (parent len : Nat) : Option Nat :=
  let left := 2 * parent + 1
  if left + 1 < len then do
    return if ← lessAt? less heap (left + 1) left then left + 1 else left
  else some left

/-- Sifts down in so many rounds at most. -/
def siftDown? : (rounds : Nat) → Array α → (parent len : Nat) → Option (Array α)
  | 0, heap, parent, len => if 2 * parent + 1 < len then none else some heap
  | rounds + 1, heap, parent, len =>
    if 2 * parent + 1 < len then do
      let child ← lesserChild? less heap parent len
      if ← lessAt? less heap child parent then siftDown? rounds (← swap? heap parent child) child len
      else return heap
    else some heap

/-- Takes the root out, if there is one, and returns it. -/
def pop? (rounds : Nat) (heap : Array α) : Option (Option α × Array α) :=
  if heap.size = 0 then some (none, heap)
  else do
    let last := heap.size - 1
    let sifted ← siftDown? less rounds (← swap? heap 0 last) 0 last
    return (sifted.back?, sifted.pop)

end Checked

section Agreement
variable {α : Type} {less : α → α → Bool} {heap : Array α} {i j : Nat}

theorem lessAt?_eq (hi : i < heap.size) (hj : j < heap.size) :
    lessAt? less heap i j = some (lessAt less heap i j) := by
  simp only [lessAt?, lessAt, Array.getElem?_eq_getElem hi, Array.getElem?_eq_getElem hj]
  rfl

theorem swap?_eq (hi : i < heap.size) (hj : j < heap.size) : swap? heap i j = some (heap.swapIfInBounds i j) :=
  if_pos ⟨hi, hj⟩

/-- Each round halves the place. -/
theorem siftUp?_eq {child rounds : Nat} (inside : child < heap.size) (enough : child < 2 ^ rounds) :
    siftUp? less rounds heap child = some (siftUp less heap child) := by
  induction rounds generalizing heap child with
  | zero =>
    obtain rfl : child = 0 := by omega
    rw [siftUp, if_pos rfl]
    rfl
  | succ rounds ih =>
    rw [siftUp?, siftUp]
    by_cases root : child = 0
    · rw [if_pos root, if_pos root]
    · have above : (child - 1) / 2 < heap.size := by omega
      have fewer : (child - 1) / 2 < 2 ^ rounds := by
        rw [Nat.pow_succ] at enough
        omega
      simp only [if_neg root, lessAt?_eq inside above, swap?_eq inside above, Option.bind_eq_bind, Option.bind_some]
      split
      next => exact ih (by rwa [Array.size_swapIfInBounds]) fewer
      next => rfl

theorem lesserChild?_eq {parent len : Nat} (short : len ≤ heap.size) (inner : 2 * parent + 1 < len) :
    lesserChild? less heap parent len = some (lesserChild less heap parent len) := by
  by_cases right : 2 * parent + 1 + 1 < len
  · simp only [lesserChild?, lesserChild, if_pos right, decide_eq_true right, Bool.true_and,
      lessAt?_eq (right.trans_le short) (inner.trans_le short)]
    rfl
  · simp only [lesserChild?, lesserChild, if_neg right, decide_eq_false right, Bool.false_and]
    rfl

/-- Each round doubles the place. -/
theorem siftDown?_eq {parent len rounds : Nat} (short : len ≤ heap.size)
    (enough : len ≤ (parent + 1) * 2 ^ rounds) :
    siftDown? less rounds heap parent len = some (siftDown less heap parent len) := by
  induction rounds generalizing heap parent with
  | zero =>
    have leaf : ¬2 * parent + 1 < len := by omega
    rw [siftDown?, siftDown, if_neg leaf, if_neg leaf]
  | succ rounds ih =>
    rw [siftDown?, siftDown]
    by_cases inner : 2 * parent + 1 < len
    · have deeper := lt_lesserChild less heap parent len
      have inside : lesserChild less heap parent len < heap.size := (lesserChild_lt inner).trans_le short
      have fewer : len ≤ (lesserChild less heap parent len + 1) * 2 ^ rounds := by
        calc len ≤ (parent + 1) * 2 ^ (rounds + 1) := enough
          _ = (2 * parent + 2) * 2 ^ rounds := by ring
          _ ≤ _ := Nat.mul_le_mul_right _ (by rw [lesserChild]; split <;> omega)
      simp only [if_pos inner, lesserChild?_eq short inner, lessAt?_eq inside (deeper.trans inside),
        swap?_eq (deeper.trans inside) inside, Option.bind_eq_bind, Option.bind_some]
      split
      next => exact ih (by rwa [Array.size_swapIfInBounds]) fewer
      next => rfl
    · rw [if_neg inner, if_neg inner]

theorem pop?_eq {rounds : Nat} (enough : heap.size ≤ 2 ^ rounds) :
    pop? less rounds heap = some (heap[0]?, pop less heap) := by
  by_cases bare : heap.size = 0
  · have none_left : (pop less heap).size = 0 := by rw [size_pop, bare]
    rw [pop?, if_pos bare, Array.eq_empty_of_size_eq_zero none_left, Array.eq_empty_of_size_eq_zero bare]
    rfl
  · have sifted : siftDown? less rounds (heap.swapIfInBounds 0 (heap.size - 1)) 0 (heap.size - 1) =
        some (siftDown less (heap.swapIfInBounds 0 (heap.size - 1)) 0 (heap.size - 1)) :=
      siftDown?_eq (by rw [Array.size_swapIfInBounds]; exact Nat.sub_le ..) (by omega)
    have last : (siftDown less (heap.swapIfInBounds 0 (heap.size - 1)) 0 (heap.size - 1)).back? = heap[0]? := by
      rw [Array.back?_eq_getElem?, size_siftDown, Array.size_swapIfInBounds, getElem?_last_siftDown]
    simp only [pop?, if_neg bare, swap?_eq (Nat.pos_of_ne_zero bare) (Nat.sub_one_lt bare), Option.bind_eq_bind,
      Option.bind_some, sifted, last, pop]
    rfl

end Agreement
end Synopsis.Frequency.MinHeap
