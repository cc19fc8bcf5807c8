import Synopsis.Encoding.Reader

/-! Numbers in as many bytes as they need: one byte below 251, otherwise a mark for the width and
then two, four or eight bytes. Every width is accepted when reading. -/
namespace Synopsis.Encoding.Varint
open Numeric

/-- The mark and the number of bytes of a wide form. -/
def widths : List (UInt8 × Nat) := [(251, 2), (252, 4), (253, 8)]

/-- The shortest form of a number below `2 ^ 64`. -/
def encode (n : Nat) : List UInt8 :=
  if n < 251 then [n.toUInt8]
  else if n < UInt16.size then 251 :: LittleEndian.toBytes 2 n
  else if n < UInt32.size then 252 :: LittleEndian.toBytes 4 n
  else 253 :: LittleEndian.toBytes 8 n

def read : Reader Nat := do
  let b ← Reader.byte
  if b < 251 then return b.toNat
  match widths.lookup b with
  | some width => Reader.word width
  | none => Reader.fail .invalidInteger

/-- Reads a number of values and then that many of them. -/
def readList {α : Type} (r : Reader α) : Reader (List α) := do r.replicate (← read)

def encodeList {α : Type} (f : α → List UInt8) (xs : List α) : List UInt8 :=
  encode xs.length ++ xs.flatMap f

end Synopsis.Encoding.Varint
