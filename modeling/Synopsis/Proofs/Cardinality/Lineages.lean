import Synopsis.Proofs.Cardinality.HashBits
import Synopsis.Proofs.Cardinality.RegisterMaxima

/-! Sketches built from empty ones by additions, clearings and merges in any order. What reaches a register
is told by the set of items alone, so that sketches of one precision form a semilattice under merging. -/
namespace Synopsis.Cardinality.HyperLogLog
open Hashing

/-- How a sketch came about. -/
inductive Lineage where
  | new (precision : Fin 33)
  | add (s : Lineage) (data : ByteArray)
  | clear (s : Lineage)
  | merge (s other : Lineage)

namespace Lineage

def precision : Lineage → Nat
  | .new precision => precision
  | .add s _ => s.precision
  | .clear s => s.precision
  | .merge s _ => s.precision

/-- The items added or merged in since the last clearing. -/
def items : Lineage → Finset ByteArray
  | .new _ => ∅
  | .add s data => insert data s.items
  | .clear _ => ∅
  | .merge s other => if other.precision = s.precision then s.items ∪ other.items else s.items

/-- The sketch of a lineage, all of it under one hasher. A merge that is refused leaves the sketch as it
was. -/
def sketch (hasher : Hasher) : Lineage → Outcome HyperLogLog
  | .new precision => ofConfig { registers := 2 ^ precision.val, hasher }
  | .add s data => return (← s.sketch hasher).add data
  | .clear s => return (← s.sketch hasher).clear
  | .merge s other => do
    let mine ← s.sketch hasher
    let theirs ← other.sketch hasher
    match mine.merge theirs with
    | .ok merged => return merged
    | .error _ => return mine

end Lineage

/-- The largest rank among the items whose hashes start with the bits of a register, zero if there are
none. A rank is one more than the zeros ahead in the other bits. -/
def tallest (hasher : Hasher) (precision : Nat) (items : Finset ByteArray) (register : Nat) : Nat :=
  (items.filter fun data => spelled (registerBits precision (hasher.word data)) = register).sup
    fun data => zerosAhead (rankBits precision (hasher.word data)) + 1

/-- No register of the first sketch is above the same one of the second. -/
def Below (a b : HyperLogLog) : Prop := ∀ register, a.registers.getD register 0 ≤ b.registers.getD register 0

section Closed
variable {precision : Nat} {hasher : Hasher}

theorem peak_le_iff {items : Multiset ByteArray} {register bound : Nat} :
    peak hasher precision items register ≤ bound ↔
      ∀ data ∈ items, place hasher precision data = register → rank hasher precision data ≤ bound := by
  simp only [peak, Multiset.sup_le, Multiset.mem_map, Multiset.mem_filter]
  constructor
  · intro most data member here
    exact most _ ⟨data, ⟨member, here⟩, rfl⟩
  · rintro most _ ⟨data, ⟨member, here⟩, rfl⟩
    exact most data member here

/-- Repeated items do not raise a register again. -/
theorem peak_congr_mem {left right : Multiset ByteArray} (same : ∀ data, data ∈ left ↔ data ∈ right) :
    peak hasher precision left = peak hasher precision right := by
  funext register
  apply Nat.le_antisymm
  · exact peak_le_iff.mpr fun data member => peak_le_iff.mp le_rfl data ((same data).mp member)
  · exact peak_le_iff.mpr fun data member => peak_le_iff.mp le_rfl data ((same data).mpr member)

theorem peak_eq_tallest (fits : precision ≤ 32) (items : Finset ByteArray) (register : Nat) :
    peak hasher precision items.val register = tallest hasher precision items register := by
  rw [tallest, Finset.sup_def, Finset.filter_val]
  simp only [← registerOf_eq_spelled fits, ← rankOf_eq_zerosAhead fits]
  rfl

theorem peak_le (fits : precision ≤ 32) (items : Multiset ByteArray) (register : Nat) :
    peak hasher precision items register ≤ 33 - precision := by
  apply peak_le_iff.mpr
  intro data _ _
  rw [rank, rankOf]
  omega

theorem size_raised (height : Nat → Nat) : (raised precision hasher height).size = 2 ^ precision := by
  rw [size, raised, Array.size_ofFn, Nat.one_shiftLeft]

theorem getD_raised (height : Nat → Nat) (register : Nat) :
    (raised precision hasher height).registers.getD register 0 =
      if register < 2 ^ precision then height register else 0 := by
  rw [Array.getD_eq_getD_getElem?, raised, Array.getElem?_ofFn, Nat.one_shiftLeft]
  split <;> rfl

theorem clear_raised (height : Nat → Nat) :
    (raised precision hasher height).clear = raised precision hasher (peak hasher precision 0) := by
  rw [raised_zero, clear, empty, raised, Array.size_ofFn]

/-- Every power of two up to the size of the hash space is accepted as a number of registers. -/
theorem ofConfig_two_pow (fits : precision ≤ 32) :
    ofConfig { registers := 2 ^ precision, hasher } = .ok (empty precision hasher) := by
  have small : 2 ^ precision ≤ UInt32.size := Nat.pow_le_pow_right (by decide) fits
  have valid : Config.validate { registers := 2 ^ precision, hasher } = .ok () := by
    simp only [Config.validate, Nat.log2_two_pow, Nat.one_shiftLeft, small, decide_true, Bool.and_self,
      if_true]
  simp only [ofConfig, valid, Nat.log2_two_pow]
  rfl

end Closed

namespace Lineage

theorem precision_le (s : Lineage) : s.precision ≤ 32 := by
  induction s with
  | new precision => exact Nat.le_of_lt_succ precision.isLt
  | add s data ih => exact ih
  | clear s ih => exact ih
  | merge s other ih _ => exact ih

/-- The sketch that a set of items leaves, whatever the order and the number of their additions. -/
abbrev closed (hasher : Hasher) (precision : Nat) (items : Finset ByteArray) : HyperLogLog :=
  raised precision hasher (peak hasher precision items.val)

theorem below_of_subset {hasher : Hasher} {precision : Nat} {left right : Finset ByteArray}
    (part : left ⊆ right) : Below (closed hasher precision left) (closed hasher precision right) := by
  intro register
  rw [getD_raised, getD_raised]
  split
  · apply peak_le_iff.mpr
    exact fun data member => peak_le_iff.mp le_rfl data (part member)
  · exact le_rfl

theorem add_closed (hasher : Hasher) (precision : Nat) (items : Finset ByteArray) (data : ByteArray) :
    (closed hasher precision items).add data = closed hasher precision (insert data items) := by
  have more : peak hasher precision (insert data items).val = peak hasher precision (items.val + {data}) :=
    peak_congr_mem fun other => by simp [or_comm]
  rw [add_raised, closed, more]
  congr 1
  funext register
  rw [peak_add]

theorem merge_closed (hasher : Hasher) (precision : Nat) (left right : Finset ByteArray) :
    (closed hasher precision left).merge (closed hasher precision right) =
      .ok (closed hasher precision (left ∪ right)) := by
  have both : peak hasher precision (left ∪ right).val =
      peak hasher precision (left.val + right.val) := peak_congr_mem fun data => by simp
  rw [merge_raised, closed, both]
  congr 2
  funext register
  rw [peak_add]

theorem merge_refused (hasher : Hasher) {mine theirs : Nat} (apart : theirs ≠ mine)
    (left right : Finset ByteArray) :
    (closed hasher mine left).merge (closed hasher theirs right) =
      .error (.mismatch .registers (2 ^ mine) (2 ^ theirs)) := by
  have sizes : (2 : Nat) ^ mine ≠ 2 ^ theirs := fun same =>
    apart (Nat.pow_right_injective (le_refl 2) same).symm
  rw [HyperLogLog.merge, size_raised, size_raised, if_pos sizes]

theorem sketch_eq (hasher : Hasher) (s : Lineage) :
    s.sketch hasher = .ok (closed hasher s.precision s.items) := by
  induction s with
  | new precision =>
    rw [sketch, ofConfig_two_pow (Nat.le_of_lt_succ precision.isLt), ← raised_zero]
    rfl
  | add s data ih =>
    rw [sketch, ih]
    exact congrArg Except.ok (add_closed hasher s.precision s.items data)
  | clear s ih =>
    rw [sketch, ih]
    exact congrArg Except.ok (clear_raised _)
  | merge s other ih ih' =>
    rw [sketch, ih, ih', items]
    by_cases same : other.precision = s.precision
    · rw [if_pos same, same]
      change (match (closed ..).merge (closed ..) with | .ok merged => _ | .error _ => _) = _
      rw [merge_closed]
      rfl
    · rw [if_neg same]
      change (match (closed ..).merge (closed ..) with | .ok merged => _ | .error _ => _) = _
      rw [merge_refused hasher same]
      rfl

end Lineage

/-- Every lineage yields a sketch whose registers are the largest ranks of its items, so that no addition
falls outside them, no register is above `33 - precision`, and none falls but by a clearing. Equal sets of
items yield equal sketches. Sketches of one precision merge, in any order and grouping, to the sketch that is
fed the items of both, and any other merge is refused and changes nothing. -/
theorem registers_are_maxima (hasher : Hasher) (s : Lineage) :
    ∃ a, s.sketch hasher = .ok a ∧ a.precision = s.precision ∧ a.size = 2 ^ s.precision ∧
      (∀ register < a.size,
        a.registers[register]? = some (tallest hasher s.precision s.items register)) ∧
      (∀ data, registerOf a.precision (hasher.word data) < a.size) ∧
      (∀ height ∈ a.registers, height ≤ 33 - s.precision) ∧
      (∀ data, ∃ b, (s.add data).sketch hasher = .ok b ∧ Below a b) ∧
      a.merge a = .ok a ∧
      ∀ t : Lineage, ∃ b, t.sketch hasher = .ok b ∧
        (t.precision = s.precision → t.items = s.items → b = a) ∧
        (t.precision = s.precision → ∃ c, a.merge b = .ok c ∧ b.merge a = .ok c ∧
          (s.merge t).sketch hasher = .ok c ∧ Below a c ∧
          (∀ stream : List ByteArray, stream.toFinset = s.items ∪ t.items →
            (empty s.precision hasher).feed stream = c) ∧
          ∀ u d, u.precision = s.precision → Lineage.sketch hasher u = .ok d →
            ∃ e whole, b.merge d = .ok e ∧ a.merge e = .ok whole ∧ c.merge d = .ok whole) ∧
        (t.precision ≠ s.precision →
          a.merge b = .error (.mismatch .registers a.size b.size) ∧
          (s.merge t).sketch hasher = .ok a) := by
  have fits := s.precision_le
  have size : (Lineage.closed hasher s.precision s.items).size = 2 ^ s.precision := size_raised _
  refine ⟨_, s.sketch_eq hasher, rfl, size, ?_, ?_, ?_, ?_, ?_, fun t =>
    ⟨_, t.sketch_eq hasher, ?_, ?_, ?_⟩⟩
  · intro register inside
    have there : register < 1 <<< s.precision := by rwa [Nat.one_shiftLeft, ← size]
    rw [Lineage.closed, raised, Array.getElem?_ofFn, dif_pos there, ← peak_eq_tallest fits]
  · intro data
    exact (place_lt hasher s.precision data).trans_eq ((Nat.one_shiftLeft _).trans size.symm)
  · intro height member
    obtain ⟨register, rfl⟩ := Array.mem_ofFn.mp member
    exact peak_le fits _ _
  · intro data
    exact ⟨_, (s.add data).sketch_eq hasher, Lineage.below_of_subset (Finset.subset_insert ..)⟩
  · rw [Lineage.merge_closed, Finset.union_self]
  · intro same items
    rw [same, items]
  · intro same
    rw [same]
    refine ⟨_, Lineage.merge_closed .., ?_, ?_, Lineage.below_of_subset Finset.subset_union_left, ?_, ?_⟩
    · rw [Lineage.merge_closed, Finset.union_comm]
    · rw [Lineage.sketch_eq, Lineage.items, if_pos same]
      rfl
    · intro stream fed
      rw [feed_empty, Lineage.closed, ← fed]
      exact congrArg (raised s.precision hasher) (peak_congr_mem fun data => by simp)
    · intro u d precisions built
      rw [Lineage.sketch_eq, precisions] at built
      obtain rfl := Except.ok.inj built
      refine ⟨_, _, Lineage.merge_closed .., Lineage.merge_closed .., ?_⟩
      rw [Lineage.merge_closed, Finset.union_assoc]
  · intro apart
    constructor
    · rw [Lineage.merge_refused hasher apart, size, size_raised]
    · rw [Lineage.sketch_eq, Lineage.items, if_neg apart]
      rfl

end Synopsis.Cardinality.HyperLogLog
