import Synopsis.Hashing.Hasher
import Synopsis.Presence.Sizing
import Synopsis.Randomness.ChaCha

/-! The cuckoo filter: short fingerprints in a table of small buckets.
Each item has two candidate buckets, and the second follows from the first and the fingerprint alone,
so a stored fingerprint can be moved to its other bucket without the item. -/
namespace Synopsis.Presence
open Numeric Hashing Randomness

abbrev Fingerprint := ByteArray

/-- A table of fingerprints; bucket `b` has the slots `4 · b … 4 · b + 3`. -/
structure Cuckoo (σ : Type) where
  buckets : Nat
  slots : Array (Option Fingerprint)
  /-- Bytes of a fingerprint. -/
  fingerprintSize : Nat
  /-- The number of items that the filter was sized for. -/
  capacity : Nat
  /-- Relocations that an insertion may make. -/
  maxKicks : Nat
  hasher : Hasher
  source : σ
  count : Nat

/-- The parameters of a cuckoo filter. -/
structure Cuckoo.Config where
  capacity : Nat := 10000
  falsePositiveRate : Float := 0.01
  maxKicks : Nat := 500
  seed : Option UInt64 := none
  hasher : Hasher := .murmur

namespace Cuckoo

def Config.validate (c : Config) : Outcome Unit := do
  checkCapacity c.capacity
  checkRate c.falsePositiveRate
  require (0 < c.maxKicks) .kicks

/-- Slots of a bucket. -/
def bucketSize : Nat := 4

/-- Whole bytes in `log2 (2 · bucketSize / rate)` bits, within `1 … 12`. -/
def fingerprintSizeFor (rate : Float) : Nat :=
  let bits := truncate (Float.log2 (2.0 * ofCount bucketSize / rate)).ceil
  min (max 1 (bits / 8)) 12

/-- Eight buckets for each `fingerprintSize` items, rounded up to a power of two.
Both steps are taken in 64-bit words, where a carry out of the word is lost. -/
def bucketsFor (capacity fingerprintSize : Nat) : Nat :=
  powerOfTwoFrom (max 1 (capacity / fingerprintSize * 8 % UInt64.size)) % UInt64.size

variable {σ : Type}

/-- The table without fingerprints. -/
def empty (buckets fingerprintSize capacity maxKicks : Nat) (hasher : Hasher) (source : σ) :
    Cuckoo σ :=
  ⟨buckets, Array.replicate (bucketSize * buckets) none, fingerprintSize, capacity, maxKicks, hasher,
    source, 0⟩

/-- The filter of a configuration with a given source of relocations. -/
def ofConfigWith (c : Config) (source : σ) : Outcome (Cuckoo σ) := do
  c.validate
  let size := fingerprintSizeFor c.falsePositiveRate
  return empty (bucketsFor c.capacity size) size c.capacity c.maxKicks c.hasher source

/-- The filter of a configuration. One without a seed takes its relocations from the given source. -/
def ofConfig (c : Config) (source : ChaCha.Stream) : Outcome (Cuckoo ChaCha.Stream) :=
  ofConfigWith c (c.seed.elim source .ofSeed)

/-- The share of slots in use. -/
def load (t : Cuckoo σ) : Float := ofCount t.count / ofCount (t.buckets * bucketSize)

/-- What the table needs to know about an item. -/
structure Key where
  first : UInt32
  second : UInt32
  fingerprint : Fingerprint

/-- The other candidate of a fingerprint that has candidate `i`. -/
def alternate (hasher : Hasher) (i : UInt32) (fingerprint : Fingerprint) : UInt32 :=
  i ^^^ hasher.word fingerprint

/-- The first four digest bytes give the first candidate and the bytes after them the fingerprint. -/
def key (t : Cuckoo σ) (data : ByteArray) : Key :=
  let digest := t.hasher.digest data
  let fingerprint := ((digest.toBytes.drop 4).take t.fingerprintSize).toByteArray
  ⟨digest.word, alternate t.hasher digest.word fingerprint, fingerprint⟩

def bucketOf (t : Cuckoo σ) (i : UInt32) : Nat := i.toNat % t.buckets

/-- The slots of the bucket of a candidate. -/
def slotsOf (t : Cuckoo σ) (i : UInt32) : List Nat :=
  (List.range bucketSize).map (bucketSize * t.bucketOf i + ·)

/-- The first slot of a candidate with the given content. -/
def find? (t : Cuckoo σ) (i : UInt32) (content : Option Fingerprint) : Option Nat :=
  (t.slotsOf i).find? fun slot => t.slots[slot]? == some content

/-- Without buckets there are no candidates. -/
def check (t : Cuckoo σ) : Outcome Unit := if t.buckets = 0 then .error .zeroModulus else .ok ()

/-- Writes a fingerprint to a slot, evicting what it held. -/
def put (t : Cuckoo σ) (slot : Nat) (fingerprint : Fingerprint) : Cuckoo σ :=
  { t with slots := t.slots.setIfInBounds slot (some fingerprint) }

/-- Fills a slot that was free. -/
def store (t : Cuckoo σ) (slot : Nat) (fingerprint : Fingerprint) : Cuckoo σ :=
  { t with slots := t.slots.setIfInBounds slot (some fingerprint), count := t.count + 1 }

/-- Frees a slot that was in use. -/
def free (t : Cuckoo σ) (slot : Nat) : Cuckoo σ :=
  { t with slots := t.slots.setIfInBounds slot none, count := t.count - 1 }

/-- Moves fingerprints at random: the one in hand takes a random slot of candidate `i`, and the one
evicted goes to its other bucket, or evicts in turn. When `kicks` runs out the last one is lost. -/
def relocate [Source σ] : (kicks : Nat) → Cuckoo σ → (i : UInt32) → Fingerprint →
    Outcome Unit × Cuckoo σ
  | 0, t, _, _ => (.error (.full t.maxKicks), t)
  | kicks + 1, t, i, fingerprint =>
    let (place, source) := below bucketSize t.source
    let slot := bucketSize * t.bucketOf i + place
    let previous := t.slots[slot]?.join
    let t := { t with source }
    match previous with
    | none => (.ok (), t.store slot fingerprint)
    | some evicted =>
      let t := t.put slot fingerprint
      let i := alternate t.hasher i evicted
      match t.find? i none with
      | some slot => (.ok (), t.store slot evicted)
      | none => relocate kicks t i evicted

/-- Stores a fingerprint in a free slot of its candidates, the first one first, or relocates others
from one of them, chosen by a coin. -/
def insertKey [Source σ] (t : Cuckoo σ) (k : Key) : Outcome Unit × Cuckoo σ :=
  match t.find? k.first none with
  | some slot => (.ok (), t.store slot k.fingerprint)
  | none =>
    match t.find? k.second none with
    | some slot => (.ok (), t.store slot k.fingerprint)
    | none =>
      let (heads, source) := coin t.source
      relocate t.maxKicks { t with source } (if heads then k.first else k.second) k.fingerprint

/-- The slot of a fingerprint equal to the one in a key, in the first candidate if it is there. -/
def locate? (t : Cuckoo σ) (k : Key) : Option Nat :=
  (t.find? k.first (some k.fingerprint)).or (t.find? k.second (some k.fingerprint))

/-- Inserts an item. A failed insertion leaves the relocations that it made. -/
def insert [Source σ] (t : Cuckoo σ) (data : ByteArray) : Outcome Unit × Cuckoo σ :=
  match t.check with
  | .error e => (.error e, t)
  | .ok () => t.insertKey (t.key data)

def contains (t : Cuckoo σ) (data : ByteArray) : Outcome Bool := do
  t.check
  return (t.locate? (t.key data)).isSome

/-- Tells whether the filter contains an item, and inserts it if not. -/
def containsThenInsert [Source σ] (t : Cuckoo σ) (data : ByteArray) : Outcome Bool × Cuckoo σ :=
  match t.contains data with
  | .error e => (.error e, t)
  | .ok true => (.ok true, t)
  | .ok false =>
    let (outcome, t) := t.insert data
    (outcome.map fun () => false, t)

/-- Takes one copy of an item out if the filter contains it, and tells whether it does. -/
def containsThenErase (t : Cuckoo σ) (data : ByteArray) : Outcome (Bool × Cuckoo σ) := do
  t.check
  match t.locate? (t.key data) with
  | some slot => return (true, t.free slot)
  | none => return (false, t)

/-- Empties the table; the source goes on where it was. -/
def clear (t : Cuckoo σ) : Cuckoo σ :=
  { t with slots := Array.replicate (bucketSize * t.buckets) none, count := 0 }

def withHasher (t : Cuckoo σ) (hasher : Hasher) : Cuckoo σ := { t with hasher }

end Cuckoo
end Synopsis.Presence
