/-! Passage between counts and binary64 numbers.
A float becomes a count by dropping its fraction; what lies outside the 64-bit counts is
moved to the nearer end, and a NaN becomes zero. -/
namespace Synopsis.Numeric

/-- The nearest float to a count below `2 ^ 64`. -/
def ofCount (n : Nat) : Float := n.toUInt64.toFloat

/-- The count of whole units in `x`, clamped to `0 … 2 ^ 64 - 1`. -/
def truncate (x : Float) : Nat := x.toUInt64.toNat

theorem truncate_lt (x : Float) : truncate x < UInt64.size := x.toUInt64.toNat_lt

end Synopsis.Numeric
