import Synopsis.Encoding.Varint
import Synopsis.Frequency.CountMin

/-! Stored Count-Min sketches: the content as plain data, and the data as bytes.
A stored sketch names its hasher, which has to be a built-in one. -/
namespace Synopsis.Frequency
open Hashing Encoding Numeric

/-- The content of a sketch as plain data. -/
structure Snapshot where
  width : Nat
  depth : Nat
  epsilon : UInt64
  delta : UInt64
  count : UInt64
  hasherName : String
  matrix : List (List UInt64)
  deriving DecidableEq

def CountMin.snapshot (s : CountMin) : Snapshot :=
  ⟨s.width, s.depth, s.epsilon, s.delta, s.total, s.hasher.name, s.rows.map Array.toList⟩

/-- Rebuilds a sketch if the hasher is known and the matrix has the stated shape. -/
def CountMin.ofSnapshot (s : Snapshot) : Outcome CountMin := do
  let some hasher := Hasher.ofName? s.hasherName | throw (.unknownHasher s.hasherName)
  if s.matrix.length ≠ s.depth then throw (.mismatch .depth s.depth s.matrix.length)
  if let some row := s.matrix.find? (·.length ≠ s.width) then
    throw (.mismatch .width s.width row.length)
  return ⟨s.width, s.matrix.map List.toArray, s.epsilon, s.delta, s.count, hasher⟩

namespace Snapshot

/-- Text is stored as its length in bytes and its UTF-8 form. -/
def encodeText (s : String) : List UInt8 := Varint.encodeList ([·]) s.toUTF8.data.toList

def readText : Reader String := do
  match String.fromUTF8? (← Varint.readList Reader.byte).toByteArray with
  | some s => return s
  | none => Reader.fail .invalidText

def encodeWord (w : UInt64) : List UInt8 := LittleEndian.toBytes 8 w.toNat

def encodeCount (w : UInt64) : List UInt8 := Varint.encode w.toNat

def readCount : Reader UInt64 := do return (← Varint.read).toUInt64

/-- The fields one after the other, lists behind their lengths. -/
def toBytes (s : Snapshot) : List UInt8 :=
  Varint.encode s.width ++ Varint.encode s.depth ++ encodeWord s.epsilon ++ encodeWord s.delta ++
    encodeCount s.count ++ encodeText s.hasherName ++
    Varint.encodeList (Varint.encodeList encodeCount) s.matrix

def read : Reader Snapshot := do
  let width ← Varint.read
  let depth ← Varint.read
  let epsilon ← Reader.word 8
  let delta ← Reader.word 8
  let count ← readCount
  let hasherName ← readText
  let matrix ← Varint.readList (Varint.readList readCount)
  return ⟨width, depth, epsilon.toUInt64, delta.toUInt64, count, hasherName, matrix⟩

end Snapshot

def CountMin.toBytes (s : CountMin) : List UInt8 := s.snapshot.toBytes

/-- Bytes after the encoding are ignored. -/
def CountMin.ofBytes (bytes : List UInt8) : Outcome CountMin :=
  match Snapshot.read bytes with
  | .ok (s, _) => ofSnapshot s
  | .error fault => .error (.encoding fault)

end Synopsis.Frequency
