import Synopsis.Similarity.MinHash
import Synopsis.Proofs.Hashing.LeadingBytes
import Mathlib

/-! What a MinHash signature depends on. The least hash of a bag is known by its lower bounds, which are those that
all items have in common, so a signature is a function of the set of items, and joining two bags takes the lesser of
their signatures everywhere. -/
namespace Synopsis.Similarity
open Hashing Numeric

/-- Two bags have the same items, in whatever order and however often. -/
def Bag.SameItems (a b : Bag) : Prop := ∀ data, data ∈ a ↔ data ∈ b

theorem Bag.SameItems.isEmpty_eq {a b : Bag} (same : a.SameItems b) : a.isEmpty = b.isEmpty := by
  refine Bool.eq_iff_iff.mpr ?_
  rw [List.isEmpty_iff, List.isEmpty_iff, List.eq_nil_iff_forall_not_mem, List.eq_nil_iff_forall_not_mem]
  exact forall_congr' fun data => not_congr (same data)

namespace MinHash

/-- The probe that an item is hashed with. -/
def probe (h : MinHash) (data : ByteArray) : Probe := .wide (h.hasher.digest data)

section Least
variable {probes others : List Probe} {i : Nat}

theorem le_least_iff {w : UInt64} : w ≤ least probes i ↔ ∀ p ∈ probes, w ≤ p.hash i := by
  cases found : (probes.map (·.hash i)).min? with
  | none =>
    have none_probed : probes = [] := List.map_eq_nil_iff.mp (List.min?_eq_none_iff.mp found)
    have top : w ≤ 0xffffffffffffffff := UInt64.le_iff_toNat_le.mpr (Nat.le_of_lt_succ w.toNat_lt)
    simp [none_probed, least, top]
  | some low =>
    rw [least, found, Option.getD_some, List.le_min?_iff found]
    exact List.forall_mem_map

/-- Words with the same lower bounds are equal. -/
theorem eq_of_le_iff {v w : UInt64} (same : ∀ u, u ≤ v ↔ u ≤ w) : v = w :=
  UInt64.le_antisymm ((same v).mp (UInt64.le_refl v)) ((same w).mpr (UInt64.le_refl w))

theorem least_append : least (probes ++ others) i = min (least probes i) (least others i) := by
  apply eq_of_le_iff
  intro w
  rw [Std.le_min_iff, le_least_iff, le_least_iff, le_least_iff]
  exact List.forall_mem_append

theorem least_congr (same : ∀ p, p ∈ probes ↔ p ∈ others) : least probes i = least others i := by
  apply eq_of_le_iff
  intro w
  simp only [le_least_iff, same]

end Least

section Signatures
variable (h : MinHash) {a b c d : Bag}

theorem signature_eq (a : Bag) : h.signature a = (List.range h.hashes).map (least (a.map h.probe)) := rfl

theorem length_signature (a : Bag) : (h.signature a).length = h.hashes := by
  rw [signature_eq, List.length_map, List.length_range]

theorem signature_nil : h.signature [] = List.replicate h.hashes 0xffffffffffffffff := by
  refine List.eq_replicate_iff.mpr ⟨length_signature h [], fun w member => ?_⟩
  obtain ⟨_, -, rfl⟩ := List.mem_map.mp member
  rfl

theorem signature_append (a b : Bag) : h.signature (a ++ b) = (h.signature a).zipWith min (h.signature b) := by
  simp only [signature_eq, List.zipWith_map, List.zipWith_self, List.map_append]
  exact List.map_congr_left fun i _ => least_append

theorem least_of_sameItems (same : a.SameItems b) (i : Nat) :
    least (a.map h.probe) i = least (b.map h.probe) i := by
  apply least_congr
  intro p
  rw [List.mem_map, List.mem_map]
  exact exists_congr fun data => and_congr_left' (same data)

theorem signature_congr (same : a.SameItems b) : h.signature a = h.signature b :=
  List.map_congr_left fun i _ => least_of_sameItems h same i

/-- The functions are compared one by one. -/
theorem agreements_eq (a b : Bag) : h.agreements a b =
    (List.range h.hashes).countP fun i => least (a.map h.probe) i = least (b.map h.probe) i := by
  rw [agreements, signature_eq, signature_eq, List.zip_map', List.countP_map]
  rfl

theorem agreements_le (a b : Bag) : h.agreements a b ≤ h.hashes := by
  rw [agreements_eq]
  exact List.countP_le_length.trans_eq List.length_range

theorem agreements_comm (a b : Bag) : h.agreements a b = h.agreements b a := by
  rw [agreements_eq, agreements_eq]
  exact List.countP_congr fun i _ => by rw [decide_eq_true_eq, decide_eq_true_eq, eq_comm]

theorem agreements_congr (first : a.SameItems b) (second : c.SameItems d) : h.agreements a c = h.agreements b d := by
  rw [agreements, agreements, signature_congr h first, signature_congr h second]

theorem agreements_of_sameItems (same : a.SameItems b) : h.agreements a b = h.hashes := by
  rw [agreements_eq]
  have all : ∀ i ∈ List.range h.hashes, decide (least (a.map h.probe) i = least (b.map h.probe) i) = true :=
    fun i _ => decide_eq_true (least_of_sameItems h same i)
  exact (List.countP_eq_length.mpr all).trans List.length_range

theorem similarity_of_ne_nil (some : a ≠ []) (others : b ≠ []) :
    h.similarity a b = ofCount (h.agreements a b) / ofCount h.hashes := by
  rw [similarity, List.isEmpty_eq_false_iff.mpr some, List.isEmpty_eq_false_iff.mpr others]

theorem similarity_congr (first : a.SameItems b) (second : c.SameItems d) : h.similarity a c = h.similarity b d := by
  rw [similarity, similarity, first.isEmpty_eq, second.isEmpty_eq, agreements_congr h first second]

theorem similarity_comm (a b : Bag) : h.similarity a b = h.similarity b a := by
  rw [similarity, similarity, agreements_comm]
  cases a.isEmpty with
  | true => cases b.isEmpty <;> rfl
  | false => cases b.isEmpty <;> rfl

/-- A signature is that of the set of items: of two bags joined it is the lesser one everywhere, and without items it
is the largest word. So a comparison of two bags depends neither on order nor on repetition nor on which of them comes
first. It never finds more agreements than functions, and finds that many where the items are the same; where the
number of functions follows from the bags, it still depends on neither order. -/
theorem signatures_are_set_minima (a b : Bag) :
    h.signature (a ++ b) = (h.signature a).zipWith min (h.signature b) ∧
    h.signature [] = List.replicate h.hashes 0xffffffffffffffff ∧
    (h.signature a).length = h.hashes ∧
    (a.SameItems b → h.signature a = h.signature b) ∧
    (∀ c d : Bag, c.SameItems a → d.SameItems b →
      h.agreements c d = h.agreements a b ∧ h.similarity c d = h.similarity a b) ∧
    (h.agreements b a = h.agreements a b ∧ h.similarity b a = h.similarity a b) ∧
    h.agreements a b ≤ h.hashes ∧
    (a ≠ [] → b ≠ [] → h.similarity a b = ofCount (h.agreements a b) / ofCount h.hashes) ∧
    (a.SameItems b → h.agreements a b = h.hashes) ∧
    (∀ c d : Bag, c.Perm a → d.Perm b → Similarity.similarity c d = Similarity.similarity a b) ∧
    Similarity.similarity b a = Similarity.similarity a b ∧
    (a ≠ [] → a.SameItems b →
      let n := a.length + b.length
      (⟨n, .murmur⟩ : MinHash).agreements a b = n ∧ Similarity.similarity a b = ofCount n / ofCount n) := by
  refine ⟨signature_append h a b, signature_nil h, length_signature h a, signature_congr h, ?_,
    ⟨agreements_comm h b a, similarity_comm h b a⟩, agreements_le h a b, similarity_of_ne_nil h,
    agreements_of_sameItems h, ?_, ?_, ?_⟩
  · intro c d first second
    exact ⟨agreements_congr h first second, similarity_congr h first second⟩
  · intro c d first second
    rw [Similarity.similarity, Similarity.similarity, first.length_eq, second.length_eq]
    exact similarity_congr _ (fun data => first.mem_iff) fun data => second.mem_iff
  · rw [Similarity.similarity, Similarity.similarity, Nat.add_comm b.length]
    exact similarity_comm _ b a
  · intro some same n
    have others : b ≠ [] := by
      rw [← List.isEmpty_eq_false_iff, ← same.isEmpty_eq]
      exact List.isEmpty_eq_false_iff.mpr some
    have functions : max n 1 = n := max_eq_left ((List.length_pos_iff.mpr some).trans_le (Nat.le_add_right ..))
    have all : (⟨n, .murmur⟩ : MinHash).agreements a b = n := agreements_of_sameItems _ same
    refine ⟨all, ?_⟩
    change (⟨max n 1, .murmur⟩ : MinHash).similarity a b = _
    rw [functions, similarity_of_ne_nil _ some others, all]

end Signatures

/-- The first item has the lesser first hash and the second the lesser third one. -/
private def pair : Bag := [Hasher.wideDataOf 0 5, Hasher.wideDataOf 4 1]

private def shuffled : Bag := [Hasher.wideDataOf 4 1, Hasher.wideDataOf 0 5, Hasher.wideDataOf 4 1]

theorem shuffled_bags_agree :
    let h : MinHash := ⟨3, .leadingBytes⟩
    pair ≠ [] ∧ shuffled ≠ [] ∧ pair.SameItems shuffled ∧ h.signature shuffled = [0, 5, 6] ∧
      h.signature pair = [0, 5, 6] ∧ h.agreements pair shuffled = 3 ∧
      h.similarity pair shuffled = ofCount 3 / ofCount 3 ∧
      Similarity.similarity pair shuffled = ofCount 5 / ofCount 5 := by
  intro h
  have some : pair ≠ [] := List.cons_ne_nil _ _
  have others : shuffled ≠ [] := List.cons_ne_nil _ _
  have same : pair.SameItems shuffled := fun data => by
    simp only [pair, shuffled, List.mem_cons, List.not_mem_nil, or_false]
    tauto
  obtain ⟨-, -, -, signature, -, -, -, share, all, -, -, each⟩ := signatures_are_set_minima h pair shuffled
  have minima : h.signature shuffled = [0, 5, 6] := rfl
  have agreements : h.agreements pair shuffled = 3 := all same
  refine ⟨some, others, same, minima, (signature same).trans minima, agreements, ?_, (each some same).2⟩
  rw [share some others, agreements]

end MinHash
end Synopsis.Similarity
