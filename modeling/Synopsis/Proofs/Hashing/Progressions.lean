import Synopsis.Hashing.Probe
import Mathlib

/-! Probes in exact arithmetic. A hash is a term of an arithmetic progression that wraps at the end of a word, and
32-bit words never reach this end. The positions of a progression come round after a period, which the common divisors
of its stride and the number of positions shorten, and before that no position is met twice. -/
namespace Synopsis.Hashing

/-- The second four bytes. -/
def Digest.upperWord (d : Digest) : UInt32 := (d.low >>> 32).toUInt32

namespace Probe

/-- The probe of two 32-bit words. -/
def ofWords (lower upper : UInt32) : Probe := ⟨lower.toUInt64, upper.toUInt64⟩

/-- The steps after which a progression comes round modulo a number of positions. -/
def period (stride modulus : Nat) : Nat := modulus / stride.gcd modulus

/-- No hash before the `k`-th wraps. -/
def Exact (p : Probe) (k : Nat) : Prop := ∀ i < k, p.start.toNat + p.stride.toNat * i < UInt64.size

section Residues
variable {stride modulus : Nat}

theorem period_pos (stride : Nat) (pos : 0 < modulus) : 0 < period stride modulus :=
  Nat.div_pos (Nat.le_of_dvd pos (Nat.gcd_dvd_right ..)) (Nat.gcd_pos_of_pos_right _ pos)

/-- A period takes the progression round, so often as the common divisor divides the stride. -/
theorem dvd_stride_mul_period (stride modulus : Nat) : modulus ∣ stride * period stride modulus := by
  rw [period, ← Nat.mul_div_assoc _ (Nat.gcd_dvd_right ..), Nat.mul_comm,
    Nat.mul_div_assoc _ (Nat.gcd_dvd_left ..)]
  exact Nat.dvd_mul_right ..

theorem term_modEq_iff (start : Nat) (pos : 0 < modulus) {i j : Nat} :
    start + stride * i ≡ start + stride * j [MOD modulus] ↔ i ≡ j [MOD period stride modulus] := by
  constructor
  · intro same
    rw [period, Nat.gcd_comm]
    exact Nat.ModEq.cancel_left_div_gcd pos (Nat.ModEq.add_left_cancel' start same)
  · intro same
    have steps : stride * i ≡ stride * j [MOD stride * period stride modulus] := same.mul_left' stride
    exact (steps.of_dvd (dvd_stride_mul_period stride modulus)).add_left start

theorem term_injOn (start : Nat) (pos : 0 < modulus) {k : Nat} (short : k ≤ period stride modulus) :
    Set.InjOn (fun i => (start + stride * i) % modulus) (Finset.range k) := by
  intro i hi j hj same
  have below {n : Nat} (member : n ∈ Finset.range k) : n < period stride modulus :=
    (Finset.mem_range.mp member).trans_le short
  exact ((term_modEq_iff start pos).mp same).eq_of_lt_of_lt (below hi) (below hj)

/-- The terms of a longer progression are those of its first period. -/
theorem terms_of_period_le (start : Nat) (pos : 0 < modulus) {k : Nat} (long : period stride modulus ≤ k) :
    (Finset.range k).image (fun i => (start + stride * i) % modulus) =
      (Finset.range (period stride modulus)).image fun i => (start + stride * i) % modulus := by
  refine Finset.Subset.antisymm (Finset.image_subset_iff.mpr fun i _ => ?_)
    (Finset.image_subset_image (Finset.range_mono long))
  have first : i % period stride modulus < period stride modulus := Nat.mod_lt i (period_pos stride pos)
  exact Finset.mem_image.mpr ⟨_, Finset.mem_range.mpr first, (term_modEq_iff start pos).mpr (Nat.mod_modEq i _)⟩

theorem card_terms (start k : Nat) (pos : 0 < modulus) :
    ((Finset.range k).image fun i => (start + stride * i) % modulus).card = min k (period stride modulus) := by
  rcases Nat.le_total k (period stride modulus) with short | long
  · rw [Finset.card_image_of_injOn (term_injOn start pos short), Finset.card_range, min_eq_left short]
  · rw [terms_of_period_le start pos long, Finset.card_image_of_injOn (term_injOn start pos le_rfl),
      Finset.card_range, min_eq_right long]

end Residues

section Words
variable {p : Probe} {k modulus : Nat}

theorem toNat_hash (p : Probe) (i : Nat) : (p.hash i).toNat = (p.start.toNat + p.stride.toNat * i) % UInt64.size := by
  rw [hash, UInt64.toNat_add, UInt64.toNat_mul, Nat.toUInt64_eq, UInt64.toNat_ofNat', Nat.mul_mod_mod, Nat.add_mod_mod]

theorem positions_eq (p : Probe) (k modulus : Nat) :
    p.positions k modulus =
      (List.range k).map fun i => (p.start.toNat + p.stride.toNat * i) % UInt64.size % modulus := by
  simp only [positions, index, toNat_hash]

theorem positions?_eq (p : Probe) (k : Nat) (pos : 0 < modulus) :
    p.positions? k modulus = .ok (p.positions k modulus) := by
  have each (i : Nat) : p.index? i modulus = pure (p.index i modulus) := if_neg (Nat.ne_of_gt pos)
  simp only [positions?, positions, each, List.mapM_pure]
  rfl

theorem narrow_eq (d : Digest) : narrow d = ofWords d.word d.upperWord := by
  have lower : d.low &&& 0xffffffff = d.word.toUInt64 := by
    apply UInt64.toNat_inj.mp
    rw [Digest.word, UInt32.toNat_toUInt64, UInt64.toNat_toUInt32, UInt64.toNat_and]
    exact Nat.and_two_pow_sub_one_eq_mod _ 32
  have upper : d.low >>> 32 = d.upperWord.toUInt64 := by
    apply UInt64.toNat_inj.mp
    have places : (32 : UInt64).toNat % 64 = 32 := rfl
    have small : d.low.toNat / 2 ^ 32 < 2 ^ 32 := Nat.div_lt_of_lt_mul d.low.toNat_lt
    rw [Digest.upperWord, UInt32.toNat_toUInt64, UInt64.toNat_toUInt32, UInt64.toNat_shiftRight, places,
      Nat.shiftRight_eq_div_pow, Nat.mod_eq_of_lt small]
  rw [narrow, ofWords, lower, upper]

/-- The last word that a term of so many steps may need is the largest one. -/
theorem ofWords_exact (lower upper : UInt32) (few : k ≤ UInt32.size + 1) : (ofWords lower upper).Exact k := by
  intro i hi
  have steps : i ≤ UInt32.size := Nat.le_of_lt_succ (hi.trans_le few)
  have start : lower.toNat ≤ UInt32.size - 1 := Nat.le_sub_one_of_lt lower.toNat_lt
  have stride : upper.toNat ≤ UInt32.size - 1 := Nat.le_sub_one_of_lt upper.toNat_lt
  have reach : upper.toNat * i ≤ (UInt32.size - 1) * UInt32.size := Nat.mul_le_mul stride steps
  simp only [ofWords, UInt32.toNat_toUInt64, UInt32.size, UInt64.size] at *
  omega

theorem Exact.positions_eq (h : p.Exact k) (modulus : Nat) :
    p.positions k modulus = (List.range k).map fun i => (p.start.toNat + p.stride.toNat * i) % modulus := by
  rw [Probe.positions_eq]
  refine List.map_congr_left fun i listed => ?_
  rw [Nat.mod_eq_of_lt (h i (List.mem_range.mp listed))]

theorem Exact.card_positions (h : p.Exact k) (pos : 0 < modulus) :
    (p.positions k modulus).toFinset.card = min k (period p.stride.toNat modulus) := by
  have terms : (p.positions k modulus).toFinset =
      (Finset.range k).image fun i => (p.start.toNat + p.stride.toNat * i) % modulus := by
    ext position
    simp [h.positions_eq]
  rw [terms, card_terms _ k pos]

end Words
end Probe
end Synopsis.Hashing
