import Synopsis.Failure
import Synopsis.Hashing.Probe
import Synopsis.Numeric.Truncation

/-! MinHash: for each of `k` hash functions the least hash over a bag is recorded, and the share of
functions on which two bags agree estimates their similarity. -/
namespace Synopsis.Similarity
open Numeric Hashing

/-- A family of hash functions. -/
structure MinHash where
  hashes : Nat
  hasher : Hasher

/-- The parameters of a family. -/
structure MinHash.Config where
  hashes : Nat := 128
  hasher : Hasher := .murmur

abbrev Bag := List ByteArray

namespace MinHash

def Config.validate (c : Config) : Outcome Unit := require (0 < c.hashes) .hashFunctions

def ofConfig (c : Config) : Outcome MinHash := do
  c.validate
  return ⟨c.hashes, c.hasher⟩

/-- The least `i`-th hash, the largest word if there is none. -/
def least (probes : List Probe) (i : Nat) : UInt64 :=
  (probes.map (·.hash i)).min?.getD 0xffffffffffffffff

/-- The least hash of a bag for each function. -/
def signature (h : MinHash) (bag : Bag) : List UInt64 :=
  let probes := bag.map fun data => Probe.wide (h.hasher.digest data)
  (List.range h.hashes).map (least probes)

/-- The number of functions on which two bags agree. -/
def agreements (h : MinHash) (a b : Bag) : Nat :=
  ((h.signature a).zip (h.signature b)).countP fun (x, y) => x = y

/-- The estimated share of common items. Two empty bags are equal, and an empty one shares nothing
with any other. -/
def similarity (h : MinHash) (a b : Bag) : Float :=
  match a.isEmpty, b.isEmpty with
  | true, true => 1.0
  | true, false | false, true => 0.0
  | false, false => ofCount (h.agreements a b) / ofCount h.hashes

def withHasher (h : MinHash) (hasher : Hasher) : MinHash := { h with hasher }

end MinHash

/-- The similarity of two bags under as many functions as they have items. -/
def similarity (a b : Bag) : Float :=
  (⟨max (a.length + b.length) 1, .murmur⟩ : MinHash).similarity a b

end Synopsis.Similarity
