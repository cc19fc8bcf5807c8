import Synopsis.Frequency.CountMin
import Synopsis.Frequency.MinHeap

/-! The most frequent items of a stream: a Count-Min sketch estimates frequencies, and a heap of
bounded size holds the items with the largest estimates, the least of them at the root.
An item seen again is refreshed where it is, and only the root is compared for admission. -/
namespace Synopsis.Frequency
open Hashing

/-- A tracked item with its estimate when it was last admitted or refreshed, and the number of that
event. -/
structure Entry where
  data : ByteArray
  frequency : UInt64
  moment : Nat

/-- Less frequent, or as frequent and older. -/
def Entry.less (a b : Entry) : Bool :=
  a.frequency < b.frequency || (a.frequency = b.frequency && a.moment < b.moment)

/-- At most `limit` tracked items over a sketch of the whole stream. -/
structure HeavyHitters where
  sketch : CountMin
  heap : Array Entry
  limit : Nat
  /-- Items added. -/
  total : Nat
  /-- The number of the next admission or refreshment. -/
  moment : Nat

/-- The parameters of a tracker. -/
structure HeavyHitters.Config where
  epsilon : Float := 0.001
  delta : Float := 0.99
  limit : Nat := 10
  hasher : Hasher := .murmur

namespace HeavyHitters

def Config.sketch (c : Config) : CountMin.Config := ⟨c.epsilon, c.delta, c.hasher⟩

def Config.validate (c : Config) : Outcome Unit := do
  require (0 < c.limit) .trackedItems
  c.sketch.validate

/-- The tracker without items over a sketch without items. -/
def empty (sketch : CountMin) (limit : Nat) : HeavyHitters := ⟨sketch, #[], limit, 0, 0⟩

def ofConfig (c : Config) : Outcome HeavyHitters := do
  c.validate
  return empty (← CountMin.ofConfig c.sketch) c.limit

def size (t : HeavyHitters) : Nat := t.heap.size

/-- Whether an item of a given estimate is to be tracked: while there is room, or when it is not less
frequent than the root. -/
def admits (t : HeavyHitters) (frequency : UInt64) : Bool :=
  match t.heap[0]? with
  | some root => t.heap.size < t.limit || root.frequency ≤ frequency
  | none => true

/-- Refreshes the entry of an item in place, or puts a new entry into the heap, for which the root
makes room. -/
def track (t : HeavyHitters) (data : ByteArray) (frequency : UInt64) : HeavyHitters :=
  let entry : Entry := ⟨data, frequency, t.moment⟩
  let heap :=
    match t.heap.findIdx? (·.data == data) with
    | some i => t.heap.setIfInBounds i entry
    | none =>
      let heap := if t.limit ≤ t.heap.size then MinHeap.pop Entry.less t.heap else t.heap
      MinHeap.push Entry.less heap entry
  { t with heap, moment := t.moment + 1 }

def add (t : HeavyHitters) (data : ByteArray) : Outcome HeavyHitters := do
  let sketch ← t.sketch.add data
  let frequency ← sketch.count data
  let t := { t with sketch, total := t.total + 1 }
  return if t.admits frequency then t.track data frequency else t

/-- The tracked items, the least frequent first and the older first among equals. -/
def elements (t : HeavyHitters) : List Entry := t.heap.toList.mergeSort fun a b => !b.less a

def clear (t : HeavyHitters) : HeavyHitters := empty t.sketch.clear t.limit

def withHasher (t : HeavyHitters) (hasher : Hasher) : HeavyHitters :=
  { t with sketch := t.sketch.withHasher hasher }

end HeavyHitters
end Synopsis.Frequency
