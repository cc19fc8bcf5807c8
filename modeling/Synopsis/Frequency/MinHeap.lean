/-! Binary heaps in arrays: the children of place `i` are the places `2 · i + 1` and `2 · i + 2`.
The operations stay in bounds on any array and only move its entries; they restore heap order where
it fails at one place alone. -/
namespace Synopsis.Frequency.MinHeap

variable {α : Type} (less : α → α → Bool)

/-- Whether the entry at one place is less than that at another; never past the end. -/
def lessAt (heap : Array α) (i j : Nat) : Bool :=
  match heap[i]?, heap[j]? with
  | some a, some b => less a b
  | _, _ => false

/-- Moves the entry at a place up while it is less than its parent. -/
def siftUp (heap : Array α) (child : Nat) : Array α :=
  if child = 0 then heap
  else
    let parent := (child - 1) / 2
    if lessAt less heap child parent then siftUp (heap.swapIfInBounds child parent) parent else heap
termination_by child
decreasing_by omega

/-- The lesser child of a place whose left child exists, the left one on ties. -/
def lesserChild (heap : Array α) (parent len : Nat) : Nat :=
  let left := 2 * parent + 1
  if left + 1 < len && lessAt less heap (left + 1) left then left + 1 else left

theorem lt_lesserChild (heap : Array α) (parent len : Nat) :
    parent < lesserChild less heap parent len := by
  simp only [lesserChild]
  split <;> omega

/-- Moves the entry at a place down while one of its children, among the first `len` entries, is
less. -/
def siftDown (heap : Array α) (parent len : Nat) : Array α :=
  if 2 * parent + 1 < len then
    let child := lesserChild less heap parent len
    if lessAt less heap child parent then siftDown (heap.swapIfInBounds parent child) child len
    else heap
  else heap
termination_by len - parent
decreasing_by
  have := lt_lesserChild less heap parent len
  omega

def push (heap : Array α) (entry : α) : Array α := siftUp less (heap.push entry) heap.size

/-- Removes the entry at the root. -/
def pop (heap : Array α) : Array α :=
  let last := heap.size - 1
  (siftDown less (heap.swapIfInBounds 0 last) 0 last).pop

end Synopsis.Frequency.MinHeap
