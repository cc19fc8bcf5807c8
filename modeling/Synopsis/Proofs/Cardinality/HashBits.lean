import Synopsis.Cardinality.HyperLogLog
import Mathlib

/-! Hashes as bit strings. The first bits of a hash spell its register, and the zeros that the other bits
start with give its rank, for every number of first bits from none to all. -/
namespace Synopsis.Cardinality.HyperLogLog

/-- The `n` low bits of a word, the highest first. -/
def bits : (n : Nat) → Nat → List Bool
  | 0, _ => []
  | n + 1, word => word.testBit n :: bits n word

/-- The number that bits spell, the highest first. -/
def spelled (bits : List Bool) : Nat := bits.foldl (fun n bit => 2 * n + bit.toNat) 0

/-- The number of zeros that bits start with. -/
def zerosAhead (bits : List Bool) : Nat := (bits.takeWhile (! ·)).length

/-- The first `precision` bits of a hash. -/
def registerBits (precision : Nat) (hash : UInt32) : List Bool := (bits 32 hash.toNat).take precision

/-- The bits of a hash after the first `precision` ones. -/
def rankBits (precision : Nat) (hash : UInt32) : List Bool := (bits 32 hash.toNat).drop precision

theorem length_bits (n word : Nat) : (bits n word).length = n := by
  induction n with
  | zero => rfl
  | succ n ih => rw [bits, List.length_cons, ih]

theorem take_bits (b n word : Nat) : (bits (b + n) word).take b = bits b (word >>> n) := by
  induction b with
  | zero => rfl
  | succ b ih =>
    rw [Nat.succ_add, bits, List.take_succ_cons, ih, bits, Nat.testBit_shiftRight, Nat.add_comm n b]

theorem drop_bits (b n word : Nat) : (bits (b + n) word).drop b = bits n word := by
  induction b with
  | zero => rw [Nat.zero_add, List.drop_zero]
  | succ b ih => rw [Nat.succ_add, bits, List.drop_succ_cons, ih]

private theorem foldl_spelled (acc : Nat) (bits : List Bool) :
    bits.foldl (fun n bit => 2 * n + bit.toNat) acc = 2 ^ bits.length * acc + spelled bits := by
  induction bits generalizing acc with
  | nil => simp [spelled]
  | cons bit bits ih =>
    rw [spelled, List.foldl_cons, List.foldl_cons, ih, ih (2 * 0 + bit.toNat), List.length_cons, pow_succ]
    ring

private theorem mod_pow_succ (n word : Nat) :
    word % 2 ^ (n + 1) = word % 2 ^ n + 2 ^ n * (word.testBit n).toNat := by
  rw [Nat.mod_pow_succ, Nat.toNat_testBit]

theorem spelled_bits (n word : Nat) : spelled (bits n word) = word % 2 ^ n := by
  induction n with
  | zero => rw [pow_zero, Nat.mod_one]; rfl
  | succ n ih =>
    rw [mod_pow_succ, ← ih, bits, spelled, List.foldl_cons, foldl_spelled, length_bits]
    ring

/-- The highest bit that is one ends the zeros ahead. -/
theorem zerosAhead_bits (n word : Nat) :
    zerosAhead (bits n word) =
      if word % 2 ^ n = 0 then n else n - 1 - (word % 2 ^ n).log2 := by
  induction n with
  | zero => simp [bits, zerosAhead]
  | succ n ih =>
    have below := Nat.mod_lt word (Nat.two_pow_pos n)
    rw [mod_pow_succ]
    cases high : word.testBit n with
    | true =>
      have pos := Nat.two_pow_pos n
      have top : (word % 2 ^ n + 2 ^ n).log2 = n := by
        rw [Nat.log2_eq_iff (by omega), Nat.pow_succ]
        omega
      rw [Bool.toNat_true, Nat.mul_one, top, if_neg (by omega)]
      simp [bits, zerosAhead, high]
    | false =>
      rw [bits, zerosAhead, List.takeWhile_cons, high]
      simp only [Bool.not_false, if_true, List.length_cons, Bool.toNat_false, Nat.mul_zero, Nat.add_zero]
      change zerosAhead (bits n word) + 1 = _
      rw [ih]
      split
      next => rfl
      next some_bit =>
        have := (Nat.log2_lt some_bit).mpr below
        omega

theorem registerOf_eq_spelled {precision : Nat} (fits : precision ≤ 32) (hash : UInt32) :
    registerOf precision hash = spelled (registerBits precision hash) := by
  obtain ⟨rest, whole⟩ := Nat.exists_eq_add_of_le fits
  have word := hash.toNat_lt
  have small : hash.toNat >>> rest < 2 ^ precision := by
    rw [Nat.shiftRight_eq_div_pow]
    apply Nat.div_lt_of_lt_mul
    rw [← pow_add, Nat.add_comm, ← whole]
    exact word
  rw [registerBits, whole, take_bits, spelled_bits, Nat.mod_eq_of_lt small, registerOf]
  congr 1
  omega

private theorem log2_mul_pow {n : Nat} (nonzero : n ≠ 0) (k : Nat) : (n * 2 ^ k).log2 = n.log2 + k := by
  have moved : n * 2 ^ k ≠ 0 := Nat.mul_ne_zero nonzero (Nat.two_pow_pos k).ne'
  have least := Nat.mul_le_mul_right (2 ^ k) (Nat.log2_self_le nonzero)
  have most := Nat.mul_lt_mul_of_pos_right (Nat.lt_log2_self (n := n)) (Nat.two_pow_pos k)
  rw [← pow_add] at least most
  rw [Nat.log2_eq_iff moved]
  exact ⟨least, by rwa [Nat.add_right_comm]⟩

/-- The cap on the rank is met exactly where none of the other bits is one. -/
theorem rankOf_eq_zerosAhead {precision : Nat} (fits : precision ≤ 32) (hash : UInt32) :
    rankOf precision hash = zerosAhead (rankBits precision hash) + 1 := by
  obtain ⟨rest, whole⟩ := Nat.exists_eq_add_of_le fits
  have space : UInt32.size = 2 ^ rest * 2 ^ precision := by
    rw [← pow_add, Nat.add_comm, ← whole]
    rfl
  have shifted : (hash.toNat <<< precision) % UInt32.size = (hash.toNat % 2 ^ rest) * 2 ^ precision := by
    rw [Nat.shiftLeft_eq, space, Nat.mul_mod_mul_right]
  rw [rankBits, whole, drop_bits, zerosAhead_bits, rankOf, shifted, leadingZeros]
  by_cases none_left : hash.toNat % 2 ^ rest = 0
  · simp only [none_left, Nat.zero_mul, if_true]
    omega
  · have moved := Nat.mul_ne_zero none_left (Nat.two_pow_pos precision).ne'
    have high := (Nat.log2_lt none_left).mpr (Nat.mod_lt hash.toNat (Nat.two_pow_pos rest))
    rw [if_neg moved, if_neg none_left, log2_mul_pow none_left]
    omega

end Synopsis.Cardinality.HyperLogLog
