import Synopsis.Presence.Bloom

/-! The counting Bloom filter: counters in place of bits, so that items can be erased again. -/
namespace Synopsis.Presence
open Numeric Packed Hashing

/-- Counters that hold how often each position was hit, up to their maximum. -/
structure CountingBloom where
  cells : Counters
  hashes : Nat
  hasher : Hasher
  count : Nat

/-- The parameters of a counting filter. -/
structure CountingBloom.Config where
  capacity : Nat := 1000000
  falsePositiveRate : Float := 0.01
  counterBits : Nat := 4
  hasher : Hasher := .murmur

namespace CountingBloom

def Config.validate (c : Config) : Outcome Unit := do
  checkCapacity c.capacity
  checkRate c.falsePositiveRate
  checkCounterBits c.counterBits

/-- The filter of `m` counters without items. -/
def empty (m k bits : Nat) (hasher : Hasher) : CountingBloom := ⟨.zeros m bits, k, hasher, 0⟩

def ofConfig (c : Config) : Outcome CountingBloom := do
  c.validate
  let m := optimalCells c.capacity c.falsePositiveRate
  Counters.checkShape m c.counterBits
  return empty m (optimalHashes c.falsePositiveRate) c.counterBits c.hasher

def size (f : CountingBloom) : Nat := f.cells.size

def positions (f : CountingBloom) (data : ByteArray) : List Nat :=
  f.hasher.positions data f.hashes f.size

/-- Counts one position and remembers in the flag whether all so far were above zero before. -/
def countSeeing (state : Bool × Counters) (i : Nat) : Outcome (Bool × Counters) := do
  let (member, cells) := state
  let seen ← cells.get i
  return (member && seen ≠ 0, ← cells.adjust i 1)

def insert (f : CountingBloom) (data : ByteArray) : Outcome CountingBloom := do
  let positions := f.positions data
  let ⟨cells, hashes, hasher, count⟩ := f
  let cells ← positions.foldlM (fun cells i => cells.adjust i 1) cells
  return ⟨cells, hashes, hasher, count + 1⟩

def contains (f : CountingBloom) (data : ByteArray) : Outcome Bool :=
  f.cells.covers (f.positions data)

/-- Inserts an item and tells whether the filter contained it before. -/
def containsThenInsert (f : CountingBloom) (data : ByteArray) : Outcome (Bool × CountingBloom) := do
  let positions := f.positions data
  let ⟨cells, hashes, hasher, count⟩ := f
  let (member, cells) ← positions.foldlM countSeeing (true, cells)
  return (member, ⟨cells, hashes, hasher, count + 1⟩)

/-- Takes one copy of an item back if the filter contains it, and tells whether it does. -/
def containsThenErase (f : CountingBloom) (data : ByteArray) : Outcome (Bool × CountingBloom) := do
  let positions := f.positions data
  if ← f.cells.covers positions then
    let ⟨cells, hashes, hasher, count⟩ := f
    let cells ← positions.foldlM (fun cells i => cells.adjust i (-1)) cells
    return (true, ⟨cells, hashes, hasher, count - 1⟩)
  else return (false, f)

def clear (f : CountingBloom) : CountingBloom := { f with cells := f.cells.clear, count := 0 }

def withHasher (f : CountingBloom) (hasher : Hasher) : CountingBloom := { f with hasher }

def expectedFill (f : CountingBloom) : Float := Presence.expectedFill f.count f.hashes f.size

def observedFill (f : CountingBloom) : Float := Presence.observedFill f.cells

end CountingBloom
end Synopsis.Presence
