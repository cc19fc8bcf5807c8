import Synopsis.Failure
import Synopsis.Hashing.Probe
import Synopsis.Numeric.Saturating
import Synopsis.Numeric.Truncation

/-! The Count-Min sketch: each row of a matrix counts every item in one of its counters, and the
least of an item's counters is its estimate. -/
namespace Synopsis.Frequency
open Numeric Hashing

/-- Rows of 64-bit counters. The two accuracies are kept as the words that they were given as. -/
structure CountMin where
  width : Nat
  rows : List (Array UInt64)
  epsilon : UInt64
  delta : UInt64
  total : UInt64
  hasher : Hasher

/-- The parameters of a sketch. -/
structure CountMin.Config where
  /-- The error of an estimate relative to the total. -/
  epsilon : Float := 0.001
  /-- The chance of a larger error. -/
  delta : Float := 0.99
  hasher : Hasher := .murmur

namespace CountMin

def Config.validate (c : Config) : Outcome Unit := do
  require (0.0 < c.epsilon && c.epsilon < 1.0) (.epsilon c.epsilon)
  require (0.0 < c.delta && c.delta < 1.0) (.delta c.delta)

/-- The sketch of a given shape without items. -/
def empty (width depth : Nat) (epsilon delta : UInt64) (hasher : Hasher) : CountMin :=
  ⟨width, List.replicate depth (Array.replicate width 0), epsilon, delta, 0, hasher⟩

/-- The base of the natural logarithm. -/
def euler : Float := 2.718281828459045

def widthFor (epsilon : Float) : Nat := truncate (euler / epsilon).ceil

def depthFor (delta : Float) : Nat := truncate (Float.log (1.0 / delta)).ceil

def ofConfig (c : Config) : Outcome CountMin := do
  c.validate
  return empty (widthFor c.epsilon) (depthFor c.delta) c.epsilon.toBits c.delta.toBits c.hasher

def depth (s : CountMin) : Nat := s.rows.length

def probe (s : CountMin) (data : ByteArray) : Probe := .narrow (s.hasher.digest data)

/-- Rows without counters have no place for an item. -/
def check (s : CountMin) : Outcome Unit :=
  if s.width = 0 && !s.rows.isEmpty then .error .zeroModulus else .ok ()

/-- Adds `n` to one counter of each row; the first row has number `i`. -/
def addToRows (p : Probe) (width : Nat) (n : UInt64) :
    (i : Nat) → List (Array UInt64) → List (Array UInt64)
  | _, [] => []
  | i, row :: rest =>
    row.modify (p.index i width) (saturatingAdd · n) :: addToRows p width n (i + 1) rest

/-- Adds `n` copies of an item. Counters stop at their maximum. -/
def addCount (s : CountMin) (data : ByteArray) (n : UInt64) : Outcome CountMin := do
  s.check
  let probe := s.probe data
  return { s with
    rows := addToRows probe s.width n 0 s.rows
    total := saturatingAdd s.total n }

def add (s : CountMin) (data : ByteArray) : Outcome CountMin := s.addCount data 1

/-- The counters of an item, row by row from number `i`. -/
def countersOf (p : Probe) (width : Nat) : (i : Nat) → List (Array UInt64) → List UInt64
  | _, [] => []
  | i, row :: rest => row[p.index i width]?.getD 0 :: countersOf p width (i + 1) rest

/-- The estimate of an item's frequency; zero in a sketch without rows. -/
def count (s : CountMin) (data : ByteArray) : Outcome UInt64 := do
  s.check
  return (countersOf (s.probe data) s.width 0 s.rows).min?.getD 0

/-- Adds the counters of a sketch of the same shape. -/
def merge (s other : CountMin) : Outcome CountMin :=
  if s.depth ≠ other.depth then .error (.mismatch .depth s.depth other.depth)
  else if s.width ≠ other.width then .error (.mismatch .width s.width other.width)
  else .ok { s with
    rows := s.rows.zipWith (Array.zipWith saturatingAdd) other.rows
    total := saturatingAdd s.total other.total }

def clear (s : CountMin) : CountMin :=
  { s with rows := s.rows.map fun row => Array.replicate row.size 0, total := 0 }

def withHasher (s : CountMin) (hasher : Hasher) : CountMin := { s with hasher }

end CountMin
end Synopsis.Frequency
