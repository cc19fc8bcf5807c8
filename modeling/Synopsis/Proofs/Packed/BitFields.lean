import Synopsis.Numeric.LittleEndian
import Synopsis.Packed.Counters
import Mathlib

/-! What the bytes of a bit array say. Fields split and join as digits do, so the bytes spell one number and
hold one population; the bits after the last one are zero and add nothing to either. -/
namespace Synopsis.Packed.Bitmap
open Numeric

/-- The bits after the last one are zero. -/
def Padded (b : Bitmap) : Prop := ∀ j, b.size ≤ j → b.get j = false

section Padding
variable {a b : Bitmap}

theorem zeros_padded (size : Nat) : (zeros size).Padded := fun j _ => get_zeros size j

theorem Padded.set (h : b.Padded) (i : Nat) (value : Bool) : (b.set i value).Padded := by
  intro j past
  rw [size_set] at past
  have apart : ¬ (i = j ∧ i < b.size) := by omega
  rw [get_set, if_neg apart]
  exact h j past

theorem Padded.setField (h : b.Padded) (start width value : Nat) : (b.setField start width value).Padded := by
  induction width generalizing b start value with
  | zero => exact h
  | succ width ih => exact ih (h.set _ _) (start + 1) (value / 2)

theorem byte_ext {x y : UInt8} (h : ∀ t < 8, x.toNat.testBit t = y.toNat.testBit t) : x = y := by
  apply UInt8.toNat_inj.mp
  apply Nat.eq_of_testBit_eq
  intro t
  by_cases low : t < 8
  · exact h t low
  · have high (z : UInt8) : z.toNat.testBit t = false :=
      Nat.testBit_lt_two_pow (z.toNat_lt.trans_le (Nat.pow_le_pow_right (by decide) (Nat.le_of_not_lt low)))
    rw [high x, high y]

/-- Bit arrays of one size with the same bits are equal, padding included. -/
theorem ext_get (size : a.size = b.size) (h : ∀ j, a.get j = b.get j) : a = b := by
  have length : a.bytes.size = b.bytes.size := by rw [a.size_bytes, b.size_bytes, size]
  have bytes : a.bytes = b.bytes := by
    apply Array.ext length
    intro i left right
    apply byte_ext
    intro t low
    have place : (8 * i + t) / 8 = i ∧ (8 * i + t) % 8 = t := by omega
    have same := h (8 * i + t)
    rw [get, get, place.1, place.2, Array.getElem?_eq_getElem left, Array.getElem?_eq_getElem right] at same
    exact same
  cases a
  cases b
  simp_all

end Padding

section Fields
variable (b : Bitmap)

theorem field_add (start m n : Nat) :
    b.field start (m + n) = b.field start m + 2 ^ m * b.field (start + m) n := by
  induction m generalizing start with
  | zero => simp [field]
  | succ m ih =>
    rw [Nat.succ_add, field, field, ih, Nat.add_right_comm start, ← Nat.add_assoc, pow_succ]
    ring

/-- A row of fields of one width is the number with the fields as digits. -/
theorem field_mul (start width n : Nat) : b.field start (n * width) =
    ∑ i ∈ Finset.range n, b.field (start + i * width) width * 2 ^ (width * i) := by
  induction n with
  | zero => simp [field]
  | succ n ih =>
    rw [Nat.succ_mul, field_add, ih, Finset.sum_range_succ, Nat.mul_comm n width, Nat.mul_comm (2 ^ _)]

theorem field_eq_zero (start width : Nat) (h : ∀ j, start ≤ j → b.get j = false) :
    b.field start width = 0 := by
  induction width generalizing start with
  | zero => rfl
  | succ width ih => simp [field, h start le_rfl, ih (start + 1) fun j past => h j (by omega)]

theorem testBit_field (start width t : Nat) :
    (b.field start width).testBit t = (decide (t < width) && b.get (start + t)) := by
  induction width generalizing start t with
  | zero => simp [field]
  | succ width ih =>
    have small := (b.get start).toNat_lt
    cases t with
    | zero =>
      rw [field, Nat.testBit_zero, Nat.add_mul_mod_self_left, Nat.mod_eq_of_lt small]
      cases b.get start <;> simp
    | succ t =>
      have half : ((b.get start).toNat + 2 * b.field (start + 1) width) / 2 = b.field (start + 1) width := by omega
      rw [field, Nat.testBit_succ, half, ih, Nat.add_right_comm, Nat.add_assoc start]
      simp

theorem field_eq_of_testBit {start width x : Nat} (small : x < 2 ^ width)
    (h : ∀ t < width, b.get (start + t) = x.testBit t) : b.field start width = x := by
  apply Nat.eq_of_testBit_eq
  intro t
  rw [testBit_field]
  by_cases low : t < width
  · rw [decide_eq_true low, Bool.true_and, h t low]
  · have high := Nat.pow_le_pow_right two_pos (Nat.le_of_not_lt low)
    rw [decide_eq_false low, Bool.false_and, Nat.testBit_lt_two_pow (small.trans_le high)]

theorem get_of_byte {i : Nat} {byte : UInt8} (there : b.bytes[i]? = some byte) {t : Nat} (low : t < 8) :
    b.get (8 * i + t) = byte.toNat.testBit t := by
  have place : (8 * i + t) / 8 = i ∧ (8 * i + t) % 8 = t := by omega
  rw [get, place.1, place.2, there]
  rfl

end Fields

section Bytes
variable {b : Bitmap}

theorem drop_bytes_cons {i : Nat} {byte : UInt8} {rest : List UInt8}
    (h : b.bytes.toList.drop i = byte :: rest) :
    b.bytes[i]? = some byte ∧ b.bytes.toList.drop (i + 1) = rest := by
  constructor
  · rw [← Array.getElem?_toList, ← List.head?_drop, h, List.head?_cons]
  · rw [← List.tail_drop, h, List.tail_cons]

theorem exists_spare (b : Bitmap) : ∃ spare, 8 * b.bytes.toList.length = b.size + spare := by
  refine ⟨8 * b.bytes.size - b.size, ?_⟩
  have := b.size_bytes
  rw [Array.length_toList]
  omega

/-- The bytes from number `i` on spell the field of their bits. -/
theorem ofBytes_drop (i : Nat) (bytes : List UInt8) (h : b.bytes.toList.drop i = bytes) :
    LittleEndian.ofBytes bytes = b.field (8 * i) (8 * bytes.length) := by
  induction bytes generalizing i with
  | nil => rfl
  | cons byte rest ih =>
    obtain ⟨there, others⟩ := drop_bytes_cons h
    have first : b.field (8 * i) 8 = byte.toNat :=
      b.field_eq_of_testBit byte.toNat_lt fun t low => b.get_of_byte there low
    have longer : 8 * (rest.length + 1) = 8 + 8 * rest.length := by omega
    rw [LittleEndian.ofBytes, ih (i + 1) others, List.length_cons, longer, field_add, first]
    rfl

/-- Padding adds nothing to the number that the bytes spell. -/
theorem Padded.ofBytes (h : b.Padded) : LittleEndian.ofBytes b.bytes.toList = b.field 0 b.size := by
  obtain ⟨spare, whole⟩ := b.exists_spare
  have blank : b.field (0 + b.size) spare = 0 := field_eq_zero b _ _ fun j past => h j (by omega)
  rw [ofBytes_drop 0 b.bytes.toList List.drop_zero, whole, field_add, blank]
  rfl

theorem countP_range_add (p : Nat → Bool) (m n : Nat) :
    (List.range (m + n)).countP p = (List.range m).countP p + (List.range n).countP fun t => p (m + t) := by
  rw [List.range_add, List.countP_append, List.countP_map]
  rfl

/-- The ones of the bytes from number `i` on. -/
theorem foldl_ones_drop (i : Nat) (bytes : List UInt8) (h : b.bytes.toList.drop i = bytes) (n : Nat) :
    bytes.foldl (fun n byte => n + ones byte) n =
      n + (List.range (8 * bytes.length)).countP fun t => b.get (8 * i + t) := by
  induction bytes generalizing i n with
  | nil => rfl
  | cons byte rest ih =>
    obtain ⟨there, others⟩ := drop_bytes_cons h
    have first : ones byte = (List.range 8).countP fun t => b.get (8 * i + t) := by
      apply List.countP_congr
      intro t low
      rw [b.get_of_byte there (List.mem_range.mp low)]
    have longer : 8 * (rest.length + 1) = 8 + 8 * rest.length := by omega
    rw [List.foldl_cons, ih (i + 1) others, first, List.length_cons, longer, countP_range_add, Nat.add_assoc]
    simp only [Nat.mul_succ, Nat.add_assoc]

/-- Padding adds nothing to the population. -/
theorem Padded.population (h : b.Padded) : b.population = (List.range b.size).countP b.get := by
  obtain ⟨spare, whole⟩ := b.exists_spare
  have blank : (List.range spare).countP (fun t => b.get (b.size + t)) = 0 := by
    apply List.countP_eq_zero.mpr
    intro t _
    rw [h _ (Nat.le_add_right ..)]
    exact Bool.false_ne_true
  rw [Bitmap.population, ← Array.foldl_toList, foldl_ones_drop 0 b.bytes.toList List.drop_zero, whole]
  simp only [Nat.mul_zero, Nat.zero_add]
  rw [countP_range_add, blank, Nat.add_zero]

end Bytes
end Synopsis.Packed.Bitmap
