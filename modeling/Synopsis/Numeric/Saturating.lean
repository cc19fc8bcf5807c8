/-! Addition of 64-bit counters that stops at the largest. -/
namespace Synopsis.Numeric

/-- The largest 64-bit counter. -/
def counterMax : Nat := UInt64.size - 1

def saturatingAdd (a b : UInt64) : UInt64 := (min (a.toNat + b.toNat) counterMax).toUInt64

theorem toNat_saturatingAdd (a b : UInt64) :
    (saturatingAdd a b).toNat = min (a.toNat + b.toNat) counterMax := by
  simp only [saturatingAdd, counterMax, UInt64.size, Nat.toUInt64_eq, UInt64.toNat_ofNat']
  exact Nat.mod_eq_of_lt (by omega)

end Synopsis.Numeric
