/-! Byte data: comparison, and the little-endian words that hash functions read. -/
namespace Synopsis.Hashing

instance lawfulBytes : LawfulBEq ByteArray where
  eq_of_beq {a b} h := by
    cases a
    cases b
    exact congrArg ByteArray.mk (eq_of_beq h)
  rfl {a} := by
    show (a.data == a.data) = true
    exact beq_self_eq_true a.data

/-- The byte at an offset, zero past the end. -/
def byteAt (data : ByteArray) (offset : Nat) : UInt8 :=
  if h : offset < data.size then data[offset] else 0

/-- The little-endian word of `width` bytes at an offset, padded with zeros past the end. -/
def wordAt (data : ByteArray) (offset : Nat) : (width : Nat) → UInt64
  | 0 => 0
  | width + 1 => (byteAt data offset).toUInt64 ||| (wordAt data (offset + 1) width <<< 8)

end Synopsis.Hashing
