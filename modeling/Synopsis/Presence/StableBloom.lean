import Synopsis.Presence.Bloom
import Synopsis.Randomness.ChaCha

/-! The stable Bloom filter for unbounded streams: before each insertion a run of cells from a random
start is decremented, so that old items fade and the share of zero cells settles. -/
namespace Synopsis.Presence
open Numeric Packed Hashing Randomness

/-- Fading cells, with the source of the random starts. -/
structure StableBloom (σ : Type) where
  cells : Counters
  hashes : Nat
  /-- Cells decremented before each insertion. -/
  decrements : Nat
  hasher : Hasher
  source : σ
  count : Nat

/-- The parameters of a stable filter. -/
structure StableBloom.Config where
  cells : Nat := 10000
  counterBits : Nat := 1
  falsePositiveRate : Float := 0.01
  seed : Option UInt64 := none
  hasher : Hasher := .murmur

namespace StableBloom

def Config.validate (c : Config) : Outcome Unit := do
  require (0 < c.cells) .cells
  checkRate c.falsePositiveRate
  checkCounterBits c.counterBits

variable {σ : Type}

/-- The filter of `m` cells without items. -/
def empty (m k decrements bits : Nat) (hasher : Hasher) (source : σ) : StableBloom σ :=
  ⟨.zeros m bits, k, decrements, hasher, source, 0⟩

/-- Half of the hash functions of a Bloom filter at the same rate, at least one and at most `m`. -/
def hashesFor (m : Nat) (rate : Float) : Nat := min (max 1 (optimalHashes rate / 2)) m

/-- The filter of a configuration with a given source of starts. -/
def ofConfigWith (c : Config) (source : σ) : Outcome (StableBloom σ) := do
  c.validate
  Counters.checkShape c.cells c.counterBits
  let k := hashesFor c.cells c.falsePositiveRate
  let decrements := optimalDecrements c.cells k c.counterBits c.falsePositiveRate
  return empty c.cells k decrements c.counterBits c.hasher source

/-- The filter of a configuration. One without a seed takes its starts from the given source. -/
def ofConfig (c : Config) (source : ChaCha.Stream) : Outcome (StableBloom ChaCha.Stream) :=
  ofConfigWith c (c.seed.elim source .ofSeed)

/-- One-bit cells that never fade: a Bloom filter of `m` bits. -/
def unstable (m : Nat) (rate : Float) (source : σ) : Outcome (StableBloom σ) := do
  let c : Config := { cells := m, falsePositiveRate := rate }
  c.validate
  return empty m (optimalHashes rate) 0 1 c.hasher source

def size (f : StableBloom σ) : Nat := f.cells.size

def positions (f : StableBloom σ) (data : ByteArray) : List Nat :=
  f.hasher.positions data f.hashes f.size

/-- Decrements `p` cells from `start` on, going round at the end. -/
def fadeFrom (start p : Nat) (cells : Counters) : Outcome Counters :=
  (List.range p).foldlM (fun cells i => cells.adjust ((start + i) % cells.size) (-1)) cells

/-- Decrements a run of cells from a random start; without decrements no start is drawn. -/
def fade [Source σ] (cells : Counters) (p : Nat) (source : σ) : Outcome (Counters × σ) := do
  if p = 0 then return (cells, source)
  let (start, source) := below cells.size source
  return (← fadeFrom start p cells, source)

/-- Lets cells fade and then fills those at the given positions. -/
def fill [Source σ] (f : StableBloom σ) (positions : List Nat) : Outcome (StableBloom σ) := do
  let ⟨cells, hashes, decrements, hasher, source, count⟩ := f
  let (cells, source) ← fade cells decrements source
  let top := cells.max
  let cells ← positions.foldlM (fun cells i => cells.set i top) cells
  return ⟨cells, hashes, decrements, hasher, source, count + 1⟩

def insert [Source σ] (f : StableBloom σ) (data : ByteArray) : Outcome (StableBloom σ) :=
  f.fill (f.positions data)

def contains (f : StableBloom σ) (data : ByteArray) : Outcome Bool :=
  f.cells.covers (f.positions data)

/-- Reads a cell and lowers the flag where it is zero. -/
def see (cells : Counters) (member : Bool) (i : Nat) : Outcome Bool := do
  if (← cells.get i) = 0 then return false
  return member

/-- Inserts an item and tells whether the filter contained it before. All cells are read before any
fades. -/
def containsThenInsert [Source σ] (f : StableBloom σ) (data : ByteArray) :
    Outcome (Bool × StableBloom σ) := do
  let positions := f.positions data
  let member ← positions.foldlM (see f.cells) true
  return (member, ← f.fill positions)

/-- Empties the cells; the source goes on where it was. -/
def clear (f : StableBloom σ) : StableBloom σ := { f with cells := f.cells.clear, count := 0 }

def withHasher (f : StableBloom σ) (hasher : Hasher) : StableBloom σ := { f with hasher }

def observedFill (f : StableBloom σ) : Float := Presence.observedFill f.cells

/-- The limit of the expected share of zero cells. -/
def stablePoint (f : StableBloom σ) : Float :=
  let faded := ofCount f.decrements * (1.0 / ofCount f.hashes - 1.0 / ofCount f.size)
  power (1.0 / (1.0 + 1.0 / faded)) f.cells.max

/-- The false positive rate at the stable point. -/
def falsePositiveRate (f : StableBloom σ) : Float := power (1.0 - f.stablePoint) f.hashes

end StableBloom
end Synopsis.Presence
