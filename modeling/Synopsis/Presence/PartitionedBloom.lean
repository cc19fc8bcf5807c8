import Synopsis.Presence.Bloom

/-! The partitioned Bloom filter: hash function `i` addresses a bit array of its own. -/
namespace Synopsis.Presence
open Numeric Packed Hashing

/-- One bit array for each hash function, all of `partitionSize` bits. -/
structure PartitionedBloom where
  /-- The number of bits that the filter was sized for. -/
  size : Nat
  partitionSize : Nat
  partitions : List Counters
  hasher : Hasher
  count : Nat

namespace PartitionedBloom

/-- The filter without items: `k` partitions that hold `m` bits together, rounded up. -/
def empty (m k : Nat) (hasher : Hasher) : PartitionedBloom :=
  let partitionSize := (m + k - 1) / k
  ⟨m, partitionSize, List.replicate k (.zeros partitionSize 1), hasher, 0⟩

/-- The filter of a configuration under given elementary functions. -/
def ofConfigWith (e : Elementary) (c : Bloom.Config) : Outcome PartitionedBloom := do
  c.validate
  return empty (e.optimalCells c.capacity c.falsePositiveRate) (e.optimalHashes c.falsePositiveRate)
    c.hasher

def ofConfig (c : Bloom.Config) : Outcome PartitionedBloom := ofConfigWith .native c

def hashes (f : PartitionedBloom) : Nat := f.partitions.length

def probe (f : PartitionedBloom) (data : ByteArray) : Probe := .narrow (f.hasher.digest data)

/-- Sets one bit in each partition; the first has number `i`. -/
def setEach (p : Probe) (size : Nat) : (i : Nat) → List Counters → Outcome (List Counters)
  | _, [] => .ok []
  | i, cells :: rest => do
    let cells ← cells.set (p.index i size) 1
    return cells :: (← setEach p size (i + 1) rest)

/-- Whether one bit in each partition is set. Stops at the first that is not. -/
def coversEach (p : Probe) (size : Nat) : (i : Nat) → List Counters → Outcome Bool
  | _, [] => .ok true
  | i, cells :: rest => do
    if (← cells.get (p.index i size)) = 0 then return false
    coversEach p size (i + 1) rest

/-- Sets one bit in each partition and tells whether all of them were set before. -/
def setEachSeeing (p : Probe) (size : Nat) :
    (i : Nat) → List Counters → Outcome (Bool × List Counters)
  | _, [] => .ok (true, [])
  | i, cells :: rest => do
    let seen ← cells.get (p.index i size)
    let cells ← cells.set (p.index i size) 1
    let (member, rest) ← setEachSeeing p size (i + 1) rest
    return (seen ≠ 0 && member, cells :: rest)

def insert (f : PartitionedBloom) (data : ByteArray) : Outcome PartitionedBloom := do
  let partitions ← setEach (f.probe data) f.partitionSize 0 f.partitions
  return { f with partitions, count := f.count + 1 }

def contains (f : PartitionedBloom) (data : ByteArray) : Outcome Bool :=
  coversEach (f.probe data) f.partitionSize 0 f.partitions

/-- Inserts an item and tells whether the filter contained it before. -/
def containsThenInsert (f : PartitionedBloom) (data : ByteArray) :
    Outcome (Bool × PartitionedBloom) := do
  let (member, partitions) ← setEachSeeing (f.probe data) f.partitionSize 0 f.partitions
  return (member, { f with partitions, count := f.count + 1 })

def clear (f : PartitionedBloom) : PartitionedBloom :=
  { f with partitions := f.partitions.map Counters.clear, count := 0 }

def withHasher (f : PartitionedBloom) (hasher : Hasher) : PartitionedBloom := { f with hasher }

/-- `1 - exp (-count / partitionSize)`. -/
def expectedFillWith (e : Elementary) (f : PartitionedBloom) : Float :=
  1.0 - e.exp (-(ofCount f.count) / ofCount f.partitionSize)

def expectedFill (f : PartitionedBloom) : Float := f.expectedFillWith .native

/-- The mean share of set bits of a partition. -/
def observedFill (f : PartitionedBloom) : Float :=
  let total := f.partitions.foldl (fun total cells => total + Presence.observedFill cells) 0.0
  total / ofCount f.hashes

end PartitionedBloom
end Synopsis.Presence
