/-! Powers of two among the counts, and whole powers of a float by repeated squaring.
The order of the products of floats is fixed, because each of them rounds. -/
namespace Synopsis.Numeric

/-- The least power of two that is not below `n`. -/
def powerOfTwoFrom (n : Nat) : Nat := if n ≤ 1 then 1 else 1 <<< ((n - 1).log2 + 1)

/-- Multiplies `acc` by `x ^ n`, taking the bits of `n` from the lowest up. -/
def powerFrom (acc x : Float) (n : Nat) : Float :=
  let acc := if n % 2 = 1 then acc * x else acc
  if n / 2 = 0 then acc else powerFrom acc (x * x) (n / 2)
termination_by n

def power (x : Float) (n : Nat) : Float := powerFrom 1.0 x n

end Synopsis.Numeric
