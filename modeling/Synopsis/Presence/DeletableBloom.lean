import Synopsis.Presence.Bloom

/-! The deletable Bloom filter: the bits are split into regions, and a region in which a bit was hit
twice is marked as collided. Erasing an item clears its bits outside the collided regions only. -/
namespace Synopsis.Presence
open Numeric Packed Hashing

/-- How the bits of a filter are split into regions. -/
structure Layout where
  /-- Bits for the items. -/
  size : Nat
  /-- Bits in each region but perhaps the last. -/
  regionSize : Nat
  /-- Flags of the collision bitmap. -/
  flags : Nat
  deriving DecidableEq, Repr

/-- Reserves one bit of `total` for each wanted region and splits the rest evenly, dropping
remainders. -/
def Layout.split (total regions : Nat) : Layout :=
  let size := total - regions
  let regionSize := max 1 (size / regions)
  ⟨size, regionSize, (size - 1) / regionSize + 1⟩

/-- A bit array and the collision flags of its regions. -/
structure DeletableBloom where
  cells : Counters
  collisions : Counters
  /-- The number of regions that were asked for. -/
  regions : Nat
  regionSize : Nat
  hashes : Nat
  hasher : Hasher
  count : Nat

/-- The parameters of a deletable filter. -/
structure DeletableBloom.Config where
  capacity : Nat := 1000000
  falsePositiveRate : Float := 0.01
  regions : Nat := 100
  hasher : Hasher := .murmur

namespace DeletableBloom

def Config.validate (c : Config) : Outcome Unit := do
  checkCapacity c.capacity
  checkRate c.falsePositiveRate
  require (0 < c.regions) .regions

/-- The filter without items on a given layout. -/
def empty (layout : Layout) (regions k : Nat) (hasher : Hasher) : DeletableBloom :=
  ⟨.zeros layout.size 1, .zeros layout.flags 1, regions, layout.regionSize, k, hasher, 0⟩

def ofConfig (c : Config) : Outcome DeletableBloom := do
  c.validate
  let total := optimalCells c.capacity c.falsePositiveRate
  require (c.regions < total) (.regionsExceed c.regions total)
  return empty (.split total c.regions) c.regions (optimalHashes c.falsePositiveRate) c.hasher

def size (f : DeletableBloom) : Nat := f.cells.size

def collidedRegions (f : DeletableBloom) : Nat := f.collisions.nonzero

def positions (f : DeletableBloom) (data : ByteArray) : List Nat :=
  f.hasher.positions data f.hashes f.size

/-- Sets a bit, or marks its region where the bit is set already. -/
def markOrSet (regionSize : Nat) (state : Counters × Counters) (i : Nat) :
    Outcome (Counters × Counters) := do
  let (cells, collisions) := state
  if (← cells.get i) = 1 then return (cells, ← collisions.set (i / regionSize) 1)
  else return (← cells.set i 1, collisions)

/-- Does the same and remembers in the flag whether all bits so far were set before. -/
def markOrSetSeeing (regionSize : Nat) (state : Bool × Counters × Counters) (i : Nat) :
    Outcome (Bool × Counters × Counters) := do
  let (member, cells, collisions) := state
  let seen ← cells.get i
  return (member && seen ≠ 0, ← markOrSet regionSize (cells, collisions) i)

/-- Clears a bit unless its region has collided. -/
def release (regionSize : Nat) (collisions cells : Counters) (i : Nat) : Outcome Counters := do
  if (← collisions.get (i / regionSize)) = 0 then cells.set i 0 else return cells

def insert (f : DeletableBloom) (data : ByteArray) : Outcome DeletableBloom := do
  let positions := f.positions data
  let ⟨cells, collisions, regions, regionSize, hashes, hasher, count⟩ := f
  let (cells, collisions) ← positions.foldlM (markOrSet regionSize) (cells, collisions)
  return ⟨cells, collisions, regions, regionSize, hashes, hasher, count + 1⟩

def contains (f : DeletableBloom) (data : ByteArray) : Outcome Bool :=
  f.cells.covers (f.positions data)

/-- Inserts an item and tells whether the filter contained it before. -/
def containsThenInsert (f : DeletableBloom) (data : ByteArray) :
    Outcome (Bool × DeletableBloom) := do
  let positions := f.positions data
  let ⟨cells, collisions, regions, regionSize, hashes, hasher, count⟩ := f
  let (member, cells, collisions) ←
    positions.foldlM (markOrSetSeeing regionSize) (true, cells, collisions)
  return (member, ⟨cells, collisions, regions, regionSize, hashes, hasher, count + 1⟩)

/-- Takes an item out if the filter contains it, and tells whether it does. -/
def containsThenErase (f : DeletableBloom) (data : ByteArray) :
    Outcome (Bool × DeletableBloom) := do
  let positions := f.positions data
  if ← f.cells.covers positions then
    let ⟨cells, collisions, regions, regionSize, hashes, hasher, count⟩ := f
    let cells ← positions.foldlM (release regionSize collisions) cells
    return (true, ⟨cells, collisions, regions, regionSize, hashes, hasher, count - 1⟩)
  else return (false, f)

def clear (f : DeletableBloom) : DeletableBloom :=
  { f with cells := f.cells.clear, collisions := f.collisions.clear, count := 0 }

def withHasher (f : DeletableBloom) (hasher : Hasher) : DeletableBloom := { f with hasher }

def expectedFill (f : DeletableBloom) : Float := Presence.expectedFill f.count f.hashes f.size

def observedFill (f : DeletableBloom) : Float := Presence.observedFill f.cells

end DeletableBloom
end Synopsis.Presence
