import Synopsis.Failure
import Synopsis.Hashing.Hasher
import Synopsis.Numeric.Power
import Synopsis.Numeric.Truncation

/-! The HyperLogLog sketch: the high bits of a 32-bit hash choose a register, which keeps the largest
rank seen among the other bits. The number of distinct items is estimated from the registers. -/
namespace Synopsis.Cardinality
open Numeric Hashing

/-- `2 ^ precision` registers. -/
structure HyperLogLog where
  precision : Nat
  registers : Array Nat
  hasher : Hasher

/-- The parameters of a sketch. -/
structure HyperLogLog.Config where
  registers : Nat := 1024
  hasher : Hasher := .murmur

namespace HyperLogLog

/-- Register counts are the powers of two up to `2 ^ 32`. -/
def Config.validate (c : Config) : Outcome Unit :=
  if c.registers = 1 <<< c.registers.log2 && c.registers ≤ UInt32.size then .ok ()
  else .error (.registerCount c.registers)

/-- The sketch of a given precision without items. -/
def empty (precision : Nat) (hasher : Hasher) : HyperLogLog :=
  ⟨precision, Array.replicate (1 <<< precision) 0, hasher⟩

def ofConfig (c : Config) : Outcome HyperLogLog := do
  c.validate
  return empty c.registers.log2 c.hasher

/-- The smallest sketch whose standard error `1.04 / sqrt m` is at most `rate`. -/
def ofErrorRate (rate : Float) : Outcome HyperLogLog := do
  require (0.0 < rate && rate < 1.0) (.errorRate rate)
  let precision := (Float.log2 (power (1.04 / rate) 2)).ceil
  require (precision <= 32.0) (.errorRateTooSmall rate)
  ofConfig { registers := 1 <<< truncate precision }

def size (s : HyperLogLog) : Nat := s.registers.size

/-- The factor that corrects the bias of the estimate for `m` registers. -/
def bias (m : Nat) : Float :=
  if m = 16 then 0.673
  else if m = 32 then 0.697
  else if m = 64 then 0.709
  else 0.7213 / (1.0 + 1.079 / ofCount m)

def alpha (s : HyperLogLog) : Float := bias s.size

/-- Zeros above the highest one of a 32-bit word. -/
def leadingZeros (w : Nat) : Nat := if w = 0 then 32 else 31 - w.log2

/-- The register of a hash: its highest `precision` bits. -/
def registerOf (precision : Nat) (hash : UInt32) : Nat := hash.toNat >>> (32 - precision)

/-- One more than the leading zeros of the other bits, of which there are `32 - precision`. -/
def rankOf (precision : Nat) (hash : UInt32) : Nat :=
  min (leadingZeros ((hash.toNat <<< precision) % UInt32.size) + 1) (32 - precision + 1)

def add (s : HyperLogLog) (data : ByteArray) : HyperLogLog :=
  let hash := s.hasher.word data
  let rank := rankOf s.precision hash
  { s with registers := s.registers.modify (registerOf s.precision hash) (max · rank) }

/-- The size of the hash space. -/
def hashSpace : Float := 4294967296.0

/-- The estimated number of distinct items. While registers are free and the estimate is small they
are counted instead; near the size of the hash space the estimate is corrected, and beyond it there
is none. -/
def count (s : HyperLogLog) : Nat :=
  let m := ofCount s.size
  let sum := s.registers.foldl (fun sum register => sum + power 0.5 register) 0.0
  let estimate := s.alpha * m * m / sum
  if estimate <= 2.5 * m then
    let free := s.registers.countP (· = 0)
    if 0 < free then truncate (m * Float.log (m / ofCount free)) else truncate estimate
  else if hashSpace <= estimate then UInt64.size - 1
  else if hashSpace / 30.0 < estimate then
    truncate (-hashSpace * Float.log (1.0 - estimate / hashSpace))
  else truncate estimate

/-- The larger register at each place. -/
def merge (s other : HyperLogLog) : Outcome HyperLogLog :=
  if s.size ≠ other.size then .error (.mismatch .registers s.size other.size)
  else .ok { s with registers := s.registers.zipWith max other.registers }

def clear (s : HyperLogLog) : HyperLogLog :=
  { s with registers := Array.replicate s.registers.size 0 }

def withHasher (s : HyperLogLog) (hasher : Hasher) : HyperLogLog := { s with hasher }

end HyperLogLog
end Synopsis.Cardinality
