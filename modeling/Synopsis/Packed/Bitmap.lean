/-! Bit arrays in bytes, the lowest bit of each byte first. The bits after the last one stay zero. -/
namespace Synopsis.Packed

/-- A bit array of fixed size. -/
structure Bitmap where
  size : Nat
  bytes : Array UInt8
  size_bytes : bytes.size = (size + 7) / 8
  deriving DecidableEq

namespace Bitmap

def zeros (size : Nat) : Bitmap := ⟨size, Array.replicate ((size + 7) / 8) 0, Array.size_replicate⟩

/-- The bit at a position, false past the end. -/
def get (b : Bitmap) (i : Nat) : Bool := (b.bytes[i / 8]?.getD 0).toNat.testBit (i % 8)

/-- `byte` with one of its bits replaced. -/
def replaceBit (byte : UInt8) (i : Nat) (value : Bool) : UInt8 :=
  let mask : UInt8 := 1 <<< i.toUInt8
  if value then byte ||| mask else byte &&& ~~~mask

/-- Writes one bit; a position past the end changes nothing. -/
def set (b : Bitmap) (i : Nat) (value : Bool) : Bitmap :=
  if i < b.size then
    { b with
      bytes := b.bytes.modify (i / 8) fun byte => replaceBit byte (i % 8) value
      size_bytes := by rw [Array.size_modify, b.size_bytes] }
  else b

/-- The number in the `width` bits from `start`, the lowest first. -/
def field (b : Bitmap) (start : Nat) : (width : Nat) → Nat
  | 0 => 0
  | width + 1 => (b.get start).toNat + 2 * b.field (start + 1) width

/-- Writes the `width` low bits of `value` from `start`. -/
def setField (b : Bitmap) (start : Nat) : (width : Nat) → (value : Nat) → Bitmap
  | 0, _ => b
  | width + 1, value => (b.set start (value % 2 = 1)).setField (start + 1) width (value / 2)

/-- The number of ones in a byte. -/
def ones (byte : UInt8) : Nat := (List.range 8).countP byte.toNat.testBit

/-- The number of bits that are one. -/
def population (b : Bitmap) : Nat := b.bytes.foldl (fun n byte => n + ones byte) 0

@[simp] theorem size_set (b : Bitmap) (i : Nat) (value : Bool) : (b.set i value).size = b.size := by
  unfold set
  split <;> rfl

@[simp] theorem size_setField (b : Bitmap) (start width value : Nat) :
    (b.setField start width value).size = b.size := by
  induction width generalizing b start value with
  | zero => rfl
  | succ width ih => rw [setField, ih, size_set]

private theorem testBit_mask : ∀ i < 8, ∀ j < 8,
    ((1 : UInt8) <<< i.toUInt8).toNat.testBit j = decide (i = j) := by decide

private theorem testBit_compl_mask : ∀ i < 8, ∀ j < 8,
    (~~~((1 : UInt8) <<< i.toUInt8)).toNat.testBit j = !decide (i = j) := by decide

theorem testBit_replaceBit (byte : UInt8) {i j : Nat} (hi : i < 8) (hj : j < 8) (value : Bool) :
    (replaceBit byte i value).toNat.testBit j = if i = j then value else byte.toNat.testBit j := by
  cases value with
  | true =>
    simp only [replaceBit, if_true, UInt8.toNat_or, Nat.testBit_or, testBit_mask i hi j hj]
    by_cases h : i = j <;> simp [h]
  | false =>
    simp only [replaceBit, Bool.false_eq_true, if_false, UInt8.toNat_and, Nat.testBit_and,
      testBit_compl_mask i hi j hj]
    by_cases h : i = j <;> simp [h]

@[simp] theorem get_zeros (size i : Nat) : (zeros size).get i = false := by
  simp only [get, zeros, Array.getElem?_replicate]
  split <;> simp

theorem get_set (b : Bitmap) (i j : Nat) (value : Bool) :
    (b.set i value).get j = if i = j ∧ i < b.size then value else b.get j := by
  unfold set
  split
  next hi =>
    simp only [get, Array.getElem?_modify, hi, and_true]
    by_cases hb : i / 8 = j / 8
    · have hlt : j / 8 < b.bytes.size := by rw [b.size_bytes]; omega
      simp only [hb, if_true, Array.getElem?_eq_getElem hlt, Option.map_some, Option.getD_some]
      rw [testBit_replaceBit _ (Nat.mod_lt _ (by decide)) (Nat.mod_lt _ (by decide))]
      have : i % 8 = j % 8 ↔ i = j := by omega
      simp only [this]
    · have : i ≠ j := fun h => hb (by rw [h])
      simp [hb, this]
  next hi => simp [hi]

/-- Writing a field leaves the bits outside it. -/
theorem get_setField_of_not_mem (b : Bitmap) (start width value j : Nat)
    (h : j < start ∨ start + width ≤ j) : (b.setField start width value).get j = b.get j := by
  induction width generalizing b start value with
  | zero => rfl
  | succ width ih =>
    rw [setField, ih _ _ _ (by omega), get_set]
    have : start ≠ j := by omega
    simp [this]

theorem field_congr {a b : Bitmap} (start width : Nat)
    (h : ∀ j, start ≤ j → j < start + width → a.get j = b.get j) :
    a.field start width = b.field start width := by
  induction width generalizing start with
  | zero => rfl
  | succ width ih =>
    rw [field, field, h start (by omega) (by omega), ih (start + 1) fun j _ _ => h j (by omega) (by omega)]

theorem field_setField_of_disjoint (b : Bitmap) {start other width : Nat} (value : Nat)
    (h : other + width ≤ start ∨ start + width ≤ other) :
    (b.setField start width value).field other width = b.field other width :=
  field_congr _ _ fun _ _ _ => get_setField_of_not_mem _ _ _ _ _ (by omega)

/-- A field inside the array reads back as the low bits that were written. -/
theorem field_setField_self (b : Bitmap) (start width value : Nat) (h : start + width ≤ b.size) :
    (b.setField start width value).field start width = value % (1 <<< width) := by
  induction width generalizing b start value with
  | zero => simp [field, Nat.mod_one]
  | succ width ih =>
    rw [setField, field, ih _ _ _ (by rw [size_set]; omega),
      get_setField_of_not_mem _ _ _ _ _ (by omega), get_set]
    have hs : start < b.size := by omega
    simp only [hs, and_self, if_true, Nat.one_shiftLeft, Nat.pow_succ']
    rw [Nat.mod_mul]
    rcases Nat.mod_two_eq_zero_or_one value with hv | hv <;> simp [hv]

theorem field_lt (b : Bitmap) (start width : Nat) : b.field start width < 1 <<< width := by
  induction width generalizing start with
  | zero => simp [field]
  | succ width ih =>
    have := ih (start + 1)
    have := (b.get start).toNat_lt
    rw [Nat.one_shiftLeft] at *
    rw [field, Nat.pow_succ]
    omega

@[simp] theorem field_zeros (size start width : Nat) : (zeros size).field start width = 0 := by
  induction width generalizing start with
  | zero => rfl
  | succ width ih => simp [field, ih]

end Bitmap
end Synopsis.Packed
