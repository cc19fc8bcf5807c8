/-! Decimal text of binary64 numbers: the fewest digits that read back, of these the nearest,
written positionally without an exponent.
All comparisons are exact, in natural numbers. -/
namespace Synopsis.Numeric.ShortestDecimal

/-- A positive number `significand · 2 ^ exponent` with the numbers that round to it.
The bounds are counted in quarters of the last place. -/
structure Cell where
  significand : Nat
  exponent : Int
  /-- Quarters below the value; one at the lower edge of a binade, otherwise two. -/
  below : Nat

/-- The cell of a finite word with its sign removed. -/
def Cell.ofBits (bits : UInt64) : Cell :=
  let fraction := (bits &&& 0xfffffffffffff).toNat
  let scale := ((bits >>> 52) &&& 0x7ff).toNat
  if scale = 0 then ⟨fraction, -1074, 2⟩
  else ⟨(1 <<< 52) + fraction, scale - 1075, if fraction = 0 ∧ 1 < scale then 1 else 2⟩

/-- The multiple `d · 10 ^ place` nearest to the cell's value among those inside the cell, if any.
Both neighbours are tried; of two at the same distance the upper is taken. The ends of the cell
belong to it when the significand is even. -/
def Cell.nearest? (c : Cell) (place : Int) : Option Nat :=
  let quarter := c.exponent - 2
  let up := (1 <<< quarter.toNat) * Nat.pow 10 (-place).toNat
  let down := (1 <<< (-quarter).toNat) * Nat.pow 10 place.toNat
  let value := 4 * c.significand * up
  let low := (4 * c.significand - c.below) * up
  let high := (4 * c.significand + 2) * up
  let inside (d : Nat) : Bool :=
    if c.significand % 2 = 0 then low ≤ d * down && d * down ≤ high
    else low < d * down && d * down < high
  let d := value / down
  if inside d && inside (d + 1) then
    if down ≤ 2 * (value - d * down) then some (d + 1) else some d
  else if inside d then some d
  else if inside (d + 1) then some (d + 1)
  else none

/-- The lowest place that a binary64 number can need. -/
def lowestPlace : Int := -324

/-- Tries the places from `lowestPlace + fuel` downward and keeps the first that has a digit string. -/
def Cell.search (c : Cell) : (fuel : Nat) → Nat × Int
  | 0 => ((c.nearest? lowestPlace).getD 0, lowestPlace)
  | fuel + 1 =>
    let place := lowestPlace + (fuel + 1 : Nat)
    match c.nearest? place with
    | some d => (d, place)
    | none => c.search fuel

/-- Every finite value is below `10 ^ 309`. -/
def Cell.digits (c : Cell) : Nat × Int := c.search 633

/-- Writes `d · 10 ^ place` without an exponent. -/
def positional (d : Nat) (place : Int) : String :=
  let text := Nat.toDigits 10 d
  if 0 ≤ place then String.ofList (text ++ List.replicate place.toNat '0')
  else
    let places := (-place).toNat
    if places < text.length then
      let whole := text.length - places
      String.ofList (text.take whole ++ '.' :: text.drop whole)
    else String.ofList ('0' :: '.' :: (List.replicate (places - text.length) '0' ++ text))

/-- The text of a float. Zero keeps its sign and NaN has none. -/
def render (x : Float) : String :=
  let bits := x.toBits
  if x.isNaN then "NaN"
  else
    let magnitude := bits &&& 0x7fffffffffffffff
    let text :=
      if magnitude = 0 then "0"
      else if magnitude = 0x7ff0000000000000 then "inf"
      else
        let (d, place) := (Cell.ofBits magnitude).digits
        positional d place
    if bits = magnitude then text else "-" ++ text

end Synopsis.Numeric.ShortestDecimal
