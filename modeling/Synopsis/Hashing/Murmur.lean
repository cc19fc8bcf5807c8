import Synopsis.Hashing.Bytes
import Synopsis.Hashing.Digest

/-! MurmurHash3 with seed zero: the 128-bit form for 64-bit words and the 32-bit form.
A short last block is padded with zeros, which leaves a part without bytes unmixed. -/
namespace Synopsis.Hashing.Murmur

def rotate64 (x : UInt64) (r : UInt64) : UInt64 := (x <<< r) ||| (x >>> (64 - r))
def rotate32 (x : UInt32) (r : UInt32) : UInt32 := (x <<< r) ||| (x >>> (32 - r))

def mixLow (k : UInt64) : UInt64 := rotate64 (k * 0x87c37b91114253d5) 31 * 0x4cf5ad432745937f
def mixHigh (k : UInt64) : UInt64 := rotate64 (k * 0x4cf5ad432745937f) 33 * 0x87c37b91114253d5

def avalanche64 (k : UInt64) : UInt64 :=
  let k := (k ^^^ (k >>> 33)) * 0xff51afd7ed558ccd
  let k := (k ^^^ (k >>> 33)) * 0xc4ceb9fe1a85ec53
  k ^^^ (k >>> 33)

/-- Absorbs `count` full blocks of sixteen bytes, starting at an offset. -/
def absorb128 (data : ByteArray) (offset : Nat) : (count : Nat) → Digest → Digest
  | 0, h => h
  | count + 1, h =>
    let low := (rotate64 (h.low ^^^ mixLow (wordAt data offset 8)) 27 + h.high) * 5 + 0x52dce729
    let high :=
      (rotate64 (h.high ^^^ mixHigh (wordAt data (offset + 8) 8)) 31 + low) * 5 + 0x38495ab5
    absorb128 data (offset + 16) count ⟨low, high⟩

/-- The 128-bit hash of `data`. -/
def hash128 (data : ByteArray) : Digest :=
  let blocks := data.size / 16
  let body := absorb128 data 0 blocks ⟨0, 0⟩
  let size := data.size.toUInt64
  let low := body.low ^^^ mixLow (wordAt data (16 * blocks) 8) ^^^ size
  let high := body.high ^^^ mixHigh (wordAt data (16 * blocks + 8) 8) ^^^ size
  let low := low + high
  let high := high + low
  let low := avalanche64 low
  let high := avalanche64 high
  let low := low + high
  ⟨low, high + low⟩

def mix32 (k : UInt32) : UInt32 := rotate32 (k * 0xcc9e2d51) 15 * 0x1b873593

def avalanche32 (k : UInt32) : UInt32 :=
  let k := (k ^^^ (k >>> 16)) * 0x85ebca6b
  let k := (k ^^^ (k >>> 13)) * 0xc2b2ae35
  k ^^^ (k >>> 16)

/-- Absorbs `count` full blocks of four bytes, starting at an offset. -/
def absorb32 (data : ByteArray) (offset : Nat) : (count : Nat) → UInt32 → UInt32
  | 0, h => h
  | count + 1, h =>
    let h := rotate32 (h ^^^ mix32 (wordAt data offset 4).toUInt32) 13 * 5 + 0xe6546b64
    absorb32 data (offset + 4) count h

/-- The 32-bit hash of `data`. -/
def hash32 (data : ByteArray) : UInt32 :=
  let blocks := data.size / 4
  let body := absorb32 data 0 blocks 0
  avalanche32 (body ^^^ mix32 (wordAt data (4 * blocks) 4).toUInt32 ^^^ data.size.toUInt32)

end Synopsis.Hashing.Murmur
