import Synopsis.Proofs.Folds
import Synopsis.Proofs.Packed.BitFields

/-! Updates of packed counters at positions that exist, and which counters are not zero. Counters of one shape
with nothing after them are told apart by their values. -/
namespace Synopsis.Packed

namespace Counters

theorem get_of_lt {c : Counters} {i : Nat} (h : i < c.size) : c.get i = .ok (c.read i) := if_pos h

theorem set_of_lt {c : Counters} {i : Nat} (h : i < c.size) (value : Nat) :
    c.set i value = .ok (c.write i (min value c.max)) := if_pos h

theorem adjust_of_lt {c : Counters} {i : Nat} (h : i < c.size) (amount : Int) :
    c.adjust i amount = .ok (c.write i (min (c.read i + amount).toNat c.max)) := if_pos h

theorem read_write {c : Counters} {i value : Nat} (h : i < c.size) (fits : value ≤ c.max) (j : Nat) :
    (c.write i value).read j = if i = j then value else c.read j := by
  split
  next same => exact same ▸ c.read_write_self h fits
  next apart => exact c.read_write_of_ne value apart

theorem covers_eq {c : Counters} {positions : List Nat} (h : ∀ i ∈ positions, i < c.size) :
    c.covers positions = .ok (decide (∀ i ∈ positions, c.read i ≠ 0)) := by
  induction positions with
  | nil => rfl
  | cons i rest ih =>
    obtain ⟨here, there⟩ := List.forall_mem_cons.mp h
    simp only [covers, get_of_lt here, List.forall_mem_cons]
    change (if c.read i = 0 then .ok false else c.covers rest) = _
    by_cases free : c.read i = 0
    · simp [free]
    · rw [if_neg free, ih there]
      simp [free]

/-- Counters of a given shape with nothing after them. -/
structure Sound (size width : Nat) (c : Counters) : Prop where
  size : c.size = size
  width : c.width = width
  padded : c.bits.Padded

section Shapes
variable {size width : Nat} {c d : Counters}

theorem zeros_sound (size width : Nat) : Sound size width (zeros size width) :=
  ⟨rfl, rfl, Bitmap.zeros_padded _⟩

theorem Sound.write (h : Sound size width c) (i value : Nat) : Sound size width (c.write i value) :=
  ⟨h.size, h.width, h.padded.setField _ _ _⟩

theorem Sound.set (h : Sound size width c) {i value : Nat} (run : c.set i value = .ok d) : Sound size width d := by
  unfold Counters.set at run
  split at run
  · cases run
    exact h.write ..
  · cases run

theorem Sound.clear (h : Sound size width c) : c.clear = zeros size width := by
  rw [Counters.clear, h.size, h.width]

theorem Sound.max (h : Sound size width c) : c.max = 2 ^ width - 1 := by
  rw [Counters.max, Nat.one_shiftLeft, h.width]

theorem Sound.max_pos (h : Sound size width c) (wide : 0 < width) : 0 < c.max := by
  have two := Nat.pow_le_pow_right two_pos wide
  rw [h.max]
  omega

theorem Sound.get_bits (h : Sound size width c) (pos : 0 < width) (j : Nat) :
    c.bits.get j = (c.read (j / width)).testBit (j % width) := by
  rw [read, h.width, Bitmap.testBit_field, decide_eq_true (Nat.mod_lt j pos), Bool.true_and, Nat.mul_comm,
    Nat.div_add_mod]

/-- The values are spelled by the bits, and the bits after them are zero. -/
theorem Sound.ext (h : Sound size width c) (k : Sound size width d) (same : ∀ i < size, c.read i = d.read i) :
    c = d := by
  have length : c.bits.size = size * width := by rw [c.size_bits, h.size, h.width]
  have other : d.bits.size = size * width := by rw [d.size_bits, k.size, k.width]
  have bits : c.bits = d.bits := by
    refine Bitmap.ext_get (length.trans other.symm) fun j => ?_
    by_cases inside : j < size * width
    · have pos : 0 < width := Nat.pos_of_ne_zero (by rintro rfl; exact absurd inside (Nat.not_lt_zero j))
      rw [h.get_bits pos, k.get_bits pos, same _ ((Nat.div_lt_iff_lt_mul pos).mpr inside)]
    · rw [h.padded j (by omega), k.padded j (by omega)]
  obtain ⟨rfl, rfl, -⟩ := h
  obtain ⟨rest, shape, -⟩ := k
  cases c
  cases d
  simp_all

end Shapes

/-- The cells that are not zero. -/
def support (c : Counters) : Finset Nat := (Finset.range c.size).filter fun i => c.read i ≠ 0

section Support
variable {size : Nat} {c d : Counters}

@[simp] theorem mem_support {i : Nat} : i ∈ c.support ↔ i < c.size ∧ c.read i ≠ 0 := by simp [support]

@[simp] theorem support_zeros (size width : Nat) : (zeros size width).support = ∅ := by simp [support]

theorem support_write {i value : Nat} (inside : i < c.size) (fits : value ≤ c.max) (pos : 0 < value) :
    (c.write i value).support = insert i c.support := by
  ext j
  have same_size : (c.write i value).size = c.size := rfl
  rw [mem_support, Finset.mem_insert, mem_support, same_size, read_write inside fits]
  by_cases same : i = j
  · subst same
    simp [inside, Nat.ne_of_gt pos]
  · simp [same, Ne.symm same]

theorem covers_eq_support {positions : List Nat} (inside : ∀ i ∈ positions, i < c.size) :
    c.covers positions = .ok (decide (positions.toFinset ⊆ c.support)) := by
  rw [covers_eq inside]
  refine congrArg Except.ok (decide_eq_decide.mpr ⟨fun set i listed => ?_, fun within i listed => ?_⟩)
  · have member := List.mem_toFinset.mp listed
    exact mem_support.mpr ⟨inside i member, set i member⟩
  · exact (mem_support.mp (within (List.mem_toFinset.mpr listed))).2

theorem Sound.bit (h : Sound size 1 c) {i : Nat} (inside : i < size) : c.read i = if i ∈ c.support then 1 else 0 := by
  have most := c.read_le_max i
  have place : i < c.size := h.size.symm ▸ inside
  rw [h.max] at most
  by_cases zero : c.read i = 0
  · simp [zero]
  · rw [if_pos (mem_support.mpr ⟨place, zero⟩)]
    omega

/-- Bit arrays of one size are told apart by the bits that are set. -/
theorem Sound.ext_support (h : Sound size 1 c) (k : Sound size 1 d) (same : c.support = d.support) :
    c = d := by
  refine h.ext k fun i inside => ?_
  rw [h.bit inside, k.bit inside, same]

end Support
end Counters
end Synopsis.Packed
