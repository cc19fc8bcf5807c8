import Synopsis.Numeric.LittleEndian

/-! Digests of 128 bits. -/
namespace Synopsis.Hashing
open Numeric

/-- A 128-bit digest as its two little-endian halves. -/
structure Digest where
  low : UInt64
  high : UInt64
  deriving DecidableEq, Repr

/-- The digest whose sixteen bytes start with those given, padded with zeros. -/
def Digest.ofBytes (bytes : List UInt8) : Digest where
  low := (LittleEndian.ofBytes (bytes.take 8)).toUInt64
  high := (LittleEndian.ofBytes ((bytes.drop 8).take 8)).toUInt64

def Digest.toBytes (d : Digest) : List UInt8 :=
  LittleEndian.toBytes 8 d.low.toNat ++ LittleEndian.toBytes 8 d.high.toNat

/-- The first four bytes. -/
def Digest.word (d : Digest) : UInt32 := d.low.toUInt32

@[simp] theorem Digest.length_toBytes (d : Digest) : d.toBytes.length = 16 := by
  simp [toBytes]

end Synopsis.Hashing
