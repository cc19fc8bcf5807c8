import Synopsis.Failure
import Synopsis.Numeric.Truncation
import Synopsis.Numeric.Power

/-! Parameters of membership filters: which are accepted, and the sizes that follow from a target
false positive rate at half fill. -/
namespace Synopsis.Presence
open Numeric

/-- The elementary functions of floats that sizes and fills are computed with. -/
structure Elementary where
  log : Float → Float
  log2 : Float → Float
  exp : Float → Float
  ceil : Float → Float

def Elementary.native : Elementary := ⟨Float.log, Float.log2, Float.exp, Float.ceil⟩

def checkCapacity (capacity : Nat) : Outcome Unit := require (0 < capacity) .capacity

/-- Rates lie strictly between zero and one; a NaN does not. -/
def checkRate (rate : Float) : Outcome Unit :=
  require (0.0 < rate && rate < 1.0) (.falsePositiveRate rate)

/-- Widths that a counting cell can have. -/
def checkCounterBits (bits : Nat) : Outcome Unit :=
  require (1 ≤ bits && bits ≤ 8) (.counterBits bits)

/-- Cells for `n` items at a false positive rate. -/
def Elementary.optimalCells (e : Elementary) (n : Nat) (rate : Float) : Nat :=
  let fill := e.log 0.5 * e.log (1.0 - 0.5)
  truncate (e.ceil (ofCount n / (fill / (e.log rate).abs)))

/-- Hash functions for a false positive rate. -/
def Elementary.optimalHashes (e : Elementary) (rate : Float) : Nat :=
  truncate (e.ceil (e.log2 (1.0 / rate)))

def optimalCells (n : Nat) (rate : Float) : Nat := Elementary.native.optimalCells n rate

def optimalHashes (rate : Float) : Nat := Elementary.native.optimalHashes rate

/-- Cells of `bits` bits, out of `m`, to decrement before each insertion that sets `k` of them, so
that the false positive rate settles at the given one. At least one and at most `m`. -/
def optimalDecrements (m k bits : Nat) (rate : Float) : Nat :=
  let top := ofCount ((1 <<< bits) - 1)
  let zeros := (1.0 - rate.pow (1.0 / ofCount k)).pow (1.0 / top)
  let p := 1.0 / ((1.0 / zeros - 1.0) * (1.0 / ofCount k - 1.0 / ofCount m))
  if !p.isFinite || p < 1.0 then 1 else min (truncate p) m

end Synopsis.Presence
