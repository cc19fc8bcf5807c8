import Synopsis.Cardinality.HyperLogLog
import Mathlib

/-! Closed form of HyperLogLog sketches: each register holds the largest rank among the items that fall to
it. -/
namespace Synopsis.Cardinality.HyperLogLog
open Hashing

/-- The register of an item. -/
def place (hasher : Hasher) (precision : Nat) (data : ByteArray) : Nat :=
  registerOf precision (hasher.word data)

/-- The rank of an item. -/
def rank (hasher : Hasher) (precision : Nat) (data : ByteArray) : Nat :=
  rankOf precision (hasher.word data)

/-- The largest rank of the items of a register, zero if there are none. -/
def peak (hasher : Hasher) (precision : Nat) (items : Multiset ByteArray) (register : Nat) : Nat :=
  ((items.filter (place hasher precision · = register)).map (rank hasher precision)).sup

/-- The sketch whose registers are given. -/
def raised (precision : Nat) (hasher : Hasher) (height : Nat → Nat) : HyperLogLog :=
  ⟨precision, Array.ofFn fun register : Fin (1 <<< precision) => height register, hasher⟩

/-- Adds items one after the other. -/
def feed (s : HyperLogLog) (items : List ByteArray) : HyperLogLog := items.foldl add s

variable {precision : Nat} {hasher : Hasher}

theorem place_lt (hasher : Hasher) (precision : Nat) (data : ByteArray) :
    place hasher precision data < 1 <<< precision := by
  have word := (hasher.word data).toNat_lt
  have whole : 2 ^ 32 ≤ 2 ^ precision * 2 ^ (32 - precision) := by
    rw [← Nat.pow_add]
    exact Nat.pow_le_pow_right (by decide) (by omega)
  rw [place, registerOf, Nat.shiftRight_eq_div_pow, Nat.one_shiftLeft]
  exact Nat.div_lt_of_lt_mul (by rw [Nat.mul_comm]; omega)

theorem rank_pos (hasher : Hasher) (precision : Nat) (data : ByteArray) :
    0 < rank hasher precision data := by
  rw [rank, rankOf]
  omega

theorem peak_zero (register : Nat) : peak hasher precision 0 register = 0 := rfl

theorem peak_add (a b : Multiset ByteArray) (register : Nat) :
    peak hasher precision (a + b) register =
      max (peak hasher precision a register) (peak hasher precision b register) := by
  simp only [peak, Multiset.filter_add, Multiset.map_add, Multiset.sup_add]

theorem peak_singleton (data : ByteArray) (register : Nat) :
    peak hasher precision {data} register =
      if place hasher precision data = register then rank hasher precision data else 0 := by
  rw [peak, Multiset.filter_singleton]
  split
  · rw [Multiset.map_singleton, Multiset.sup_singleton]
  · rfl

theorem raised_zero : raised precision hasher (peak hasher precision 0) = empty precision hasher := by
  have registers : (Array.ofFn fun register : Fin (1 <<< precision) =>
      peak hasher precision 0 register) = Array.replicate (1 <<< precision) 0 :=
    Array.ext (by simp) fun i _ _ => by simp [peak_zero]
  rw [raised, registers, empty]

theorem add_raised (height : Nat → Nat) (data : ByteArray) :
    (raised precision hasher height).add data =
      raised precision hasher fun register =>
        max (height register) (peak hasher precision {data} register) := by
  have registers : (Array.ofFn fun register : Fin (1 <<< precision) => height register).modify
      (place hasher precision data) (max · (rank hasher precision data)) =
        Array.ofFn fun register : Fin (1 <<< precision) =>
          max (height register) (peak hasher precision {data} register) := by
    refine Array.ext (by simp) fun i _ _ => ?_
    simp only [Array.getElem_modify, Array.getElem_ofFn, peak_singleton]
    split
    · rfl
    · rw [Nat.max_zero]
  exact congrArg (HyperLogLog.mk precision · hasher) registers

theorem feed_raised (held : Multiset ByteArray) (items : List ByteArray) :
    (raised precision hasher (peak hasher precision held)).feed items =
      raised precision hasher (peak hasher precision (held + items)) := by
  induction items generalizing held with
  | nil => rw [Multiset.coe_nil, add_zero]; rfl
  | cons data items ih =>
    have next : (raised precision hasher (peak hasher precision held)).add data =
        raised precision hasher (peak hasher precision (held + {data})) := by
      simp only [add_raised, ← peak_add]
    rw [feed, List.foldl_cons, next]
    refine (ih _).trans ?_
    rw [add_assoc, Multiset.singleton_add, Multiset.cons_coe]

theorem feed_empty (items : List ByteArray) :
    (empty precision hasher).feed items = raised precision hasher (peak hasher precision items) := by
  rw [← raised_zero, feed_raised, zero_add]

theorem merge_eq_ok_iff {s other t : HyperLogLog} :
    s.merge other = .ok t ↔ s.size = other.size ∧
      t = { s with registers := s.registers.zipWith max other.registers } := by
  unfold merge
  split
  next sizes => exact ⟨fun run => (nomatch run), fun ⟨same, _⟩ => absurd same sizes⟩
  next sizes =>
    exact ⟨fun run => ⟨not_not.mp sizes, (Except.ok.inj run).symm⟩, fun ⟨_, same⟩ => same ▸ rfl⟩

theorem merge_accepted_iff {s other : HyperLogLog} :
    (∃ t, s.merge other = .ok t) ↔ s.size = other.size := by
  simp only [merge_eq_ok_iff, exists_and_left, exists_eq, and_true]

theorem merge_raised (left right : Nat → Nat) (hasher' : Hasher) :
    (raised precision hasher left).merge (raised precision hasher' right) =
      .ok (raised precision hasher fun register => max (left register) (right register)) := by
  have registers : (Array.ofFn fun register : Fin (1 <<< precision) => left register).zipWith max
      (Array.ofFn fun register : Fin (1 <<< precision) => right register) =
        Array.ofFn fun register : Fin (1 <<< precision) => max (left register) (right register) :=
    Array.ext (by simp) fun i _ _ => by simp
  have sizes : (raised precision hasher left).size = (raised precision hasher' right).size := by
    simp [size, raised]
  exact merge_eq_ok_iff.mpr ⟨sizes, congrArg (HyperLogLog.mk precision · hasher) registers.symm⟩

theorem registers_raised {left right : Nat → Nat} {hasher' : Hasher} :
    (raised precision hasher left).registers = (raised precision hasher' right).registers ↔
      ∀ register < 1 <<< precision, left register = right register := by
  constructor
  · intro same register inside
    have entries := congrArg (fun registers : Array Nat => registers[register]?) same
    simpa [raised, inside] using entries
  · intro same
    exact Array.ext (by simp [raised]) fun i inside _ => by
      simpa [raised] using same i (by simpa [raised] using inside)

end Synopsis.Cardinality.HyperLogLog
