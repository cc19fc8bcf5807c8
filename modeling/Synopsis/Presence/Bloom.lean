import Synopsis.Presence.Sizing
import Synopsis.Packed.Counters
import Synopsis.Hashing.Probe

/-! The Bloom filter: every item sets `k` bits of one array, and an item whose bits are all set may
have been inserted. -/
namespace Synopsis.Presence
open Numeric Packed Hashing

/-- `1 - exp (-count · k / m)`, the expected share of set bits. -/
def expectedFill (count k m : Nat) : Float :=
  1.0 - Float.exp (-(ofCount count) * ofCount k / ofCount m)

/-- The observed share of counters above zero. -/
def observedFill (cells : Counters) : Float := ofCount cells.nonzero / ofCount cells.size

/-- Sets a bit and remembers in the flag whether all bits so far were set before. -/
def setSeeing (state : Bool × Counters) (i : Nat) : Outcome (Bool × Counters) := do
  let (member, cells) := state
  let seen ← cells.get i
  return (member && seen ≠ 0, ← cells.set i 1)

/-- A bit array and the number of its hash functions. -/
structure Bloom where
  cells : Counters
  hashes : Nat
  hasher : Hasher
  count : Nat

/-- The parameters of a Bloom filter. -/
structure Bloom.Config where
  capacity : Nat := 1000000
  falsePositiveRate : Float := 0.01
  hasher : Hasher := .murmur

namespace Bloom

def Config.validate (c : Config) : Outcome Unit := do
  checkCapacity c.capacity
  checkRate c.falsePositiveRate

/-- The filter of `m` bits without items. -/
def empty (m k : Nat) (hasher : Hasher) : Bloom := ⟨.zeros m 1, k, hasher, 0⟩

def ofConfig (c : Config) : Outcome Bloom := do
  c.validate
  let m := optimalCells c.capacity c.falsePositiveRate
  Counters.checkShape m 1
  return empty m (optimalHashes c.falsePositiveRate) c.hasher

def size (f : Bloom) : Nat := f.cells.size

/-- The positions of an item. Past the reach of 32-bit words the wide probe is read. -/
def positions (f : Bloom) (data : ByteArray) : List Nat :=
  let digest := f.hasher.digest data
  let probe := if f.size < UInt32.size then Probe.narrow digest else Probe.wide digest
  probe.positions f.hashes f.size

def insert (f : Bloom) (data : ByteArray) : Outcome Bloom := do
  let positions := f.positions data
  let ⟨cells, hashes, hasher, count⟩ := f
  let cells ← positions.foldlM (fun cells i => cells.set i 1) cells
  return ⟨cells, hashes, hasher, count + 1⟩

def contains (f : Bloom) (data : ByteArray) : Outcome Bool := f.cells.covers (f.positions data)

/-- Inserts an item and tells whether the filter contained it before. -/
def containsThenInsert (f : Bloom) (data : ByteArray) : Outcome (Bool × Bloom) := do
  let positions := f.positions data
  let ⟨cells, hashes, hasher, count⟩ := f
  let (member, cells) ← positions.foldlM setSeeing (true, cells)
  return (member, ⟨cells, hashes, hasher, count + 1⟩)

def clear (f : Bloom) : Bloom := { f with cells := f.cells.clear, count := 0 }

/-- Later items use another hasher; the stored bits stay as they are. -/
def withHasher (f : Bloom) (hasher : Hasher) : Bloom := { f with hasher }

def expectedFill (f : Bloom) : Float := Presence.expectedFill f.count f.hashes f.size

def observedFill (f : Bloom) : Float := Presence.observedFill f.cells

end Bloom
end Synopsis.Presence
