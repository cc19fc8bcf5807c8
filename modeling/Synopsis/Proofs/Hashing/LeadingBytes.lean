import Synopsis.Proofs.Hashing.Progressions

/-! A transparent hasher for concrete runs: the digest of data is the data's own first bytes. -/
namespace Synopsis.Hashing.Hasher
open Numeric

def leadingBytes : Hasher := ⟨"leading-bytes", fun data => .ofBytes data.data.toList⟩

/-- Data whose digest words are two small numbers: the start and the stride of its probe, or its first
bucket and its fingerprint. -/
def dataOf (first second : UInt8) : ByteArray := ⟨#[first, 0, 0, 0, second]⟩

/-- Data whose digest halves are two small numbers: the start and the stride of its wide probe. -/
def wideDataOf (start stride : UInt8) : ByteArray := ⟨#[start, 0, 0, 0, 0, 0, 0, 0, stride]⟩

/-- Data whose first digest word is a number, and the others zero. -/
def wordOf (n : Nat) : ByteArray := ⟨(LittleEndian.toBytes 4 n).toArray⟩

theorem digest_wordOf {n : Nat} (small : n < UInt32.size) : leadingBytes.digest (wordOf n) = ⟨n.toUInt64, 0⟩ := by
  have length : (LittleEndian.toBytes 4 n).length = 4 := LittleEndian.length_toBytes 4 n
  have low : (LittleEndian.toBytes 4 n).take 8 = LittleEndian.toBytes 4 n := List.take_of_length_le (by omega)
  have high : (LittleEndian.toBytes 4 n).drop 8 = [] := List.drop_eq_nil_of_le (by omega)
  have value : LittleEndian.ofBytes (LittleEndian.toBytes 4 n) = n :=
    (LittleEndian.ofBytes_toBytes 4 n).trans (Nat.mod_eq_of_lt small)
  simp only [leadingBytes, wordOf, Digest.ofBytes, low, high, value]
  rfl

theorem word_wordOf {n : Nat} (small : n < UInt32.size) : (leadingBytes.word (wordOf n)).toNat = n := by
  rw [word, digest_wordOf small, Digest.word, UInt64.toNat_toUInt32, Nat.toUInt64_eq, UInt64.toNat_ofNat',
    Nat.mod_mod_of_dvd _ (by decide), Nat.mod_eq_of_lt small]

/-- With such data all hashes are one. -/
theorem positions_wordOf {n : Nat} (small : n < UInt32.size) (k modulus : Nat) :
    leadingBytes.positions (wordOf n) k modulus = List.replicate k (n % modulus) := by
  have upper : (leadingBytes.digest (wordOf n)).upperWord.toNat = 0 := by
    have places : (32 : UInt64).toNat % 64 = 32 := rfl
    rw [digest_wordOf small, Digest.upperWord, UInt64.toNat_toUInt32, UInt64.toNat_shiftRight, places,
      Nat.toUInt64_eq, UInt64.toNat_ofNat', Nat.mod_eq_of_lt (small.trans (by decide)), Nat.shiftRight_eq_div_pow,
      Nat.div_eq_of_lt small]
  have lower : (leadingBytes.digest (wordOf n)).word.toNat = n := word_wordOf small
  refine List.eq_replicate_iff.mpr ⟨Probe.length_positions .., fun i listed => ?_⟩
  obtain ⟨j, -, rfl⟩ := List.mem_map.mp listed
  rw [Probe.narrow_eq, Probe.index, Probe.toNat_hash]
  simp only [Probe.ofWords, UInt32.toNat_toUInt64, lower, upper, Nat.zero_mul, Nat.add_zero]
  rw [Nat.mod_eq_of_lt (small.trans (by decide))]

end Synopsis.Hashing.Hasher
