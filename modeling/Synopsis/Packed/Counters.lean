import Synopsis.Failure
import Synopsis.Packed.Bitmap

/-! Arrays of small counters, packed back to back into bits.
A counter of `width` bits holds `0 … 2 ^ width - 1`, and every change is clamped to this range. -/
namespace Synopsis.Packed

/-- `size` counters of `width` bits each. -/
structure Counters where
  size : Nat
  width : Nat
  bits : Bitmap
  size_bits : bits.size = size * width
  deriving DecidableEq

namespace Counters

/-- Every counter is zero. -/
def zeros (size width : Nat) : Counters := ⟨size, width, .zeros (size * width), rfl⟩

/-- The shapes that can be allocated: one to eight bits, fewer than `2 ^ 64` in all. -/
def checkShape (size width : Nat) : Outcome Unit := do
  require (1 ≤ width && width ≤ 8) (.counterWidth width)
  require (size * width < UInt64.size) (.addressSpace size width)

def new (size width : Nat) : Outcome Counters := do
  checkShape size width
  return zeros size width

/-- The largest value of a counter. -/
def max (c : Counters) : Nat := (1 <<< c.width) - 1

/-- The counter at a position below `size`. -/
def read (c : Counters) (i : Nat) : Nat := c.bits.field (i * c.width) c.width

/-- Writes the low bits of `value` to the counter at a position below `size`. -/
def write (c : Counters) (i value : Nat) : Counters :=
  { c with
    bits := c.bits.setField (i * c.width) c.width value
    size_bits := by rw [Bitmap.size_setField, c.size_bits] }

def get (c : Counters) (i : Nat) : Outcome Nat :=
  if i < c.size then .ok (c.read i) else .error (.outOfBounds i c.size)

/-- Sets a counter to `value`, or to the maximum where that is smaller. -/
def set (c : Counters) (i value : Nat) : Outcome Counters :=
  if i < c.size then .ok (c.write i (min value c.max)) else .error (.outOfBounds i c.size)

/-- Adds a signed amount to a counter, stopping at zero and at the maximum. -/
def adjust (c : Counters) (i : Nat) (amount : Int) : Outcome Counters :=
  if i < c.size then .ok (c.write i (min (c.read i + amount).toNat c.max))
  else .error (.outOfBounds i c.size)

def clear (c : Counters) : Counters := zeros c.size c.width

def toList (c : Counters) : List Nat := (List.range c.size).map c.read

/-- The number of counters above zero; for counters of one bit this is the bit population. -/
def nonzero (c : Counters) : Nat :=
  if c.width = 1 then c.bits.population else c.toList.countP (· ≠ 0)

def sum (c : Counters) : Nat := c.toList.foldl (· + ·) 0

def toBytes (c : Counters) : List UInt8 := c.bits.bytes.toList

/-- Whether every listed counter is above zero. Stops at the first that is not. -/
def covers (c : Counters) : List Nat → Outcome Bool
  | [] => .ok true
  | i :: rest => do
    if (← c.get i) = 0 then return false
    c.covers rest

theorem read_le_max (c : Counters) (i : Nat) : c.read i ≤ c.max :=
  Nat.le_sub_one_of_lt (c.bits.field_lt _ _)

@[simp] theorem read_zeros (size width i : Nat) : (zeros size width).read i = 0 :=
  Bitmap.field_zeros _ _ _

theorem read_write_self (c : Counters) {i value : Nat} (hi : i < c.size) (hv : value ≤ c.max) :
    (c.write i value).read i = value := by
  have room : i * c.width + c.width ≤ c.bits.size := by
    rw [c.size_bits, ← Nat.succ_mul]
    exact Nat.mul_le_mul_right _ hi
  have := Nat.two_pow_pos c.width
  simp only [read, write, Bitmap.field_setField_self _ _ _ _ room]
  exact Nat.mod_eq_of_lt (by simp only [max, Nat.one_shiftLeft] at *; omega)

theorem read_write_of_ne (c : Counters) {i j : Nat} (value : Nat) (h : i ≠ j) :
    (c.write i value).read j = c.read j := by
  simp only [read, write]
  apply Bitmap.field_setField_of_disjoint
  rcases Nat.lt_or_gt_of_ne h with h | h
  · exact .inr (by rw [← Nat.succ_mul]; exact Nat.mul_le_mul_right _ h)
  · exact .inl (by rw [← Nat.succ_mul]; exact Nat.mul_le_mul_right _ h)

end Counters
end Synopsis.Packed
