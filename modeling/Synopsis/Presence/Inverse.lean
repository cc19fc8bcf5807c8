import Synopsis.Hashing.Hasher
import Synopsis.Presence.Sizing

/-! The inverse filter: each item owns one slot, which keeps the last item written to it.
Presence may be forgotten, but it is never invented. -/
namespace Synopsis.Presence
open Hashing

/-- The last items written, by slot. -/
structure Inverse where
  slots : Array (Option ByteArray)
  hasher : Hasher

/-- The parameters of an inverse filter. -/
structure Inverse.Config where
  capacity : Nat := 10000
  hasher : Hasher := .murmur

namespace Inverse

def Config.validate (c : Config) : Outcome Unit := checkCapacity c.capacity

/-- The filter with all slots free. -/
def empty (capacity : Nat) (hasher : Hasher) : Inverse := ⟨Array.replicate capacity none, hasher⟩

def ofConfig (c : Config) : Outcome Inverse := do
  c.validate
  return empty c.capacity c.hasher

def capacity (f : Inverse) : Nat := f.slots.size

/-- The slot of an item. -/
def index (f : Inverse) (data : ByteArray) : Nat := (f.hasher.word data).toNat % f.capacity

/-- The item in the slot of an item. -/
def occupant? (f : Inverse) (data : ByteArray) : Option ByteArray := f.slots[f.index data]?.join

/-- Writes an item to its slot. -/
def insert (f : Inverse) (data : ByteArray) : Inverse :=
  { f with slots := f.slots.setIfInBounds (f.index data) (some data) }

/-- Writes an item to its slot and returns the one that it displaces. -/
def replace (f : Inverse) (data : ByteArray) : Option ByteArray × Inverse :=
  (f.occupant? data, f.insert data)

def contains (f : Inverse) (data : ByteArray) : Bool := f.occupant? data == some data

/-- Writes an item to its slot and tells whether it was there before. -/
def containsThenInsert (f : Inverse) (data : ByteArray) : Bool × Inverse :=
  let (previous, f) := f.replace data
  (previous == some data, f)

def clear (f : Inverse) : Inverse := empty f.capacity f.hasher

/-- Frees the slots in place, one after the other. -/
def sweep (f : Inverse) : Inverse :=
  { f with slots := (List.range f.capacity).foldl (fun slots i => slots.setIfInBounds i none) f.slots }

def withHasher (f : Inverse) (hasher : Hasher) : Inverse := { f with hasher }

end Inverse
end Synopsis.Presence
