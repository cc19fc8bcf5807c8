/-! Numbers as byte sequences, the lowest byte first. -/
namespace Synopsis.Numeric.LittleEndian

/-- The `width` low bytes of `n`. -/
def toBytes : (width : Nat) → (n : Nat) → List UInt8
  | 0, _ => []
  | width + 1, n => n.toUInt8 :: toBytes width (n / 256)

def ofBytes : List UInt8 → Nat
  | [] => 0
  | b :: rest => b.toNat + 256 * ofBytes rest

@[simp] theorem length_toBytes (width n : Nat) : (toBytes width n).length = width := by
  induction width generalizing n with
  | zero => rfl
  | succ width ih => simp [toBytes, ih]

/-- Reading back keeps the number modulo the range of its width. -/
theorem ofBytes_toBytes (width n : Nat) : ofBytes (toBytes width n) = n % (1 <<< (8 * width)) := by
  induction width generalizing n with
  | zero => simp [toBytes, ofBytes, Nat.mod_one]
  | succ width ih =>
    simp only [toBytes, ofBytes, ih, Nat.toUInt8_eq, UInt8.toNat_ofNat', Nat.one_shiftLeft]
    rw [Nat.mul_succ, Nat.pow_add, Nat.mul_comm (2 ^ (8 * width)), Nat.mod_mul]

theorem ofBytes_lt (bytes : List UInt8) : ofBytes bytes < 1 <<< (8 * bytes.length) := by
  induction bytes with
  | nil => simp [ofBytes]
  | cons b rest ih =>
    have hb := b.toNat_lt
    rw [Nat.one_shiftLeft] at ih ⊢
    rw [ofBytes, List.length_cons, Nat.mul_succ, Nat.pow_add]
    omega

end Synopsis.Numeric.LittleEndian
