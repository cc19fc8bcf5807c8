import Synopsis.Presence.PartitionedBloom

/-! The scalable Bloom filter: a series of partitioned filters with falling false positive rates.
Only the last takes insertions, and once its expected fill reaches a limit another is appended. -/
namespace Synopsis.Presence
open Numeric Hashing

/-- The parameters of a scalable filter. -/
structure ScalableBloom.Config where
  /-- Items for which each filter of the series is sized. -/
  hint : Nat := 10000
  /-- The rate of the first filter. -/
  falsePositiveRate : Float := 0.01
  /-- The ratio of the rates of successive filters. -/
  tighteningRatio : Float := 0.8
  /-- The expected fill at which another filter is appended. -/
  fillRatio : Float := 0.5
  hasher : Hasher := .murmur
  elementary : Elementary := .native

/-- A nonempty series of filters, the last one apart. -/
structure ScalableBloom where
  hint : Nat
  rate : Float
  tighteningRatio : Float
  fillRatio : Float
  hasher : Hasher
  elementary : Elementary
  earlier : List PartitionedBloom
  tail : PartitionedBloom

namespace ScalableBloom

def Config.validate (c : Config) : Outcome Unit := do
  checkCapacity c.hint
  checkRate c.falsePositiveRate
  require (0.0 < c.tighteningRatio && c.tighteningRatio < 1.0) (.tighteningRatio c.tighteningRatio)
  require (0.0 < c.fillRatio && c.fillRatio <= 1.0) (.fillRatio c.fillRatio)

/-- The filter with number `i` of a series. -/
def link (hint : Nat) (rate tighteningRatio : Float) (hasher : Hasher) (e : Elementary) (i : Nat) :
    Outcome PartitionedBloom :=
  PartitionedBloom.ofConfigWith e
    { capacity := hint, falsePositiveRate := rate * power tighteningRatio i, hasher := hasher }

def ofConfig (c : Config) : Outcome ScalableBloom := do
  c.validate
  let tail ← link c.hint c.falsePositiveRate c.tighteningRatio c.hasher c.elementary 0
  return ⟨c.hint, c.falsePositiveRate, c.tighteningRatio, c.fillRatio, c.hasher, c.elementary, [], tail⟩

/-- The whole series, oldest first. -/
def series (f : ScalableBloom) : List PartitionedBloom := f.earlier ++ [f.tail]

/-- The oldest filter. -/
def first (f : ScalableBloom) : PartitionedBloom := f.earlier.headD f.tail

def size (f : ScalableBloom) : Nat := f.series.foldl (fun n filter => n + filter.size) 0

def hashes (f : ScalableBloom) : Nat := f.first.hashes

def count (f : ScalableBloom) : Nat := f.series.foldl (fun n filter => n + filter.count) 0

def filters (f : ScalableBloom) : Nat := f.earlier.length + 1

/-- Appends the next filter of the series. -/
def grow (f : ScalableBloom) : Outcome ScalableBloom := do
  let tail ← link f.hint f.rate f.tighteningRatio f.hasher f.elementary f.filters
  return { f with earlier := f.series, tail }

def insert (f : ScalableBloom) (data : ByteArray) : Outcome ScalableBloom := do
  let f ← if f.tail.expectedFillWith f.elementary >= f.fillRatio then f.grow else pure f
  return { f with tail := ← f.tail.insert data }

/-- Whether some filter of a series contains an item. Stops at the first that does. -/
def containsAny (data : ByteArray) : List PartitionedBloom → Outcome Bool
  | [] => .ok false
  | filter :: rest => do
    if ← filter.contains data then return true
    containsAny data rest

def contains (f : ScalableBloom) (data : ByteArray) : Outcome Bool := containsAny data f.series

/-- Inserts an item and tells whether the filter contained it before. -/
def containsThenInsert (f : ScalableBloom) (data : ByteArray) : Outcome (Bool × ScalableBloom) := do
  let member ← f.contains data
  return (member, ← f.insert data)

/-- Goes back to the first filter, without items. -/
def clear (f : ScalableBloom) : ScalableBloom := { f with earlier := [], tail := f.first.clear }

def withHasher (f : ScalableBloom) (hasher : Hasher) : ScalableBloom :=
  { f with
    hasher
    earlier := f.earlier.map (·.withHasher hasher)
    tail := f.tail.withHasher hasher }

/-- The mean fill of the series. -/
def observedFill (f : ScalableBloom) : Float :=
  let total := f.series.foldl (fun total filter => total + filter.observedFill) 0.0
  total / ofCount f.filters

end ScalableBloom
end Synopsis.Presence
