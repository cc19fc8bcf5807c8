import Synopsis.Proofs.Hashing.Progressions
import Synopsis.Proofs.Similarity.Signatures
import Mathlib

/-! Why agreements estimate a similarity. A function under which different items have different values orders the items
of two bags, and the signatures agree on it just where the first item of this order is one of both bags. -/
namespace Synopsis.Similarity.MinHash
open Hashing Numeric

/-- The place of an item in the order of the `i`-th function. -/
def value (h : MinHash) (i : Nat) (data : ByteArray) : Nat :=
  ((h.hasher.digest data).low.toNat + (h.hasher.digest data).high.toNat * i) % UInt64.size

/-- Different items of a bag have different values under the `i`-th function. -/
def Separates (h : MinHash) (bag : Bag) (i : Nat) : Prop :=
  ∀ x ∈ bag, ∀ y ∈ bag, h.value i x = h.value i y → x = y

/-- An item of a bag that no other one comes before. -/
structure Lowest (h : MinHash) (i : Nat) (bag : Bag) (first : ByteArray) : Prop where
  mem : first ∈ bag
  le : ∀ data ∈ bag, h.value i first ≤ h.value i data

/-- The first item of a bag in the order of the `i`-th function. -/
def minimiser? (h : MinHash) (bag : Bag) (i : Nat) : Option ByteArray := bag.argmin (h.value i)

section Order
variable {h : MinHash} {i : Nat} {a b bag : Bag} {x y first : ByteArray}

theorem lowest_of_minimiser (found : h.minimiser? bag i = some first) : h.Lowest i bag first :=
  ⟨List.argmin_mem found, fun _ member => List.le_of_mem_argmin member found⟩

theorem exists_minimiser (nonempty : bag ≠ []) : ∃ first, h.minimiser? bag i = some first := by
  refine Option.ne_none_iff_exists'.mp fun missing => nonempty ?_
  exact List.argmin_eq_none.mp missing

theorem Lowest.value_eq (one : h.Lowest i bag x) (other : h.Lowest i bag y) : h.value i x = h.value i y :=
  le_antisymm (one.le y other.mem) (other.le x one.mem)

theorem Lowest.lt_of_separates (lowest : h.Lowest i bag first) (separated : h.Separates bag i) :
    ∀ data ∈ bag, data ≠ first → h.value i first < h.value i data := by
  intro data member different
  refine lt_of_le_of_ne (lowest.le data member) fun same => different ?_
  exact separated data member first lowest.mem same.symm

/-- Of two bags joined, a common least value is the least one. -/
theorem Lowest.append (one : h.Lowest i a x) (other : h.Lowest i b y) (same : h.value i x = h.value i y) :
    h.Lowest i (a ++ b) x := by
  refine ⟨List.mem_append_left b one.mem, fun data member => ?_⟩
  rcases List.mem_append.mp member with left | right
  · exact one.le data left
  · exact same.trans_le (other.le data right)

theorem Lowest.of_subset (lowest : h.Lowest i bag first) (part : a ⊆ bag) (member : first ∈ a) : h.Lowest i a first :=
  ⟨member, fun data listed => lowest.le data (part listed)⟩

end Order

instance (h : MinHash) (bag : Bag) (i : Nat) : Decidable (h.Separates bag i) :=
  inferInstanceAs (Decidable (∀ x ∈ bag, ∀ y ∈ bag, h.value i x = h.value i y → x = y))

section Agreement
variable {h : MinHash} {i : Nat} {a b bag : Bag} {first : ByteArray}

theorem toNat_hash_probe (h : MinHash) (i : Nat) (data : ByteArray) : ((h.probe data).hash i).toNat = h.value i data :=
  Probe.toNat_hash _ i

theorem Lowest.toNat_least (lowest : h.Lowest i bag first) : (least (bag.map h.probe) i).toNat = h.value i first := by
  have bounded : least (bag.map h.probe) i ≤ (h.probe first).hash i :=
    le_least_iff.mp (UInt64.le_refl _) _ (List.mem_map_of_mem lowest.mem)
  have bound : (h.probe first).hash i ≤ least (bag.map h.probe) i := by
    rw [le_least_iff, List.forall_mem_map]
    intro data member
    rw [UInt64.le_iff_toNat_le, toNat_hash_probe, toNat_hash_probe]
    exact lowest.le data member
  rw [← toNat_hash_probe, UInt64.le_antisymm bounded bound]

/-- Of two least values that are equal both belong to the first item of all. -/
theorem least_eq_iff (separated : h.Separates (a ++ b) i) (ha : a ≠ []) (hb : b ≠ [])
    (lowest : h.Lowest i (a ++ b) first) :
    least (a.map h.probe) i = least (b.map h.probe) i ↔ first ∈ a ∧ first ∈ b := by
  constructor
  · intro same
    obtain ⟨x, foundx⟩ := exists_minimiser (h := h) (i := i) ha
    obtain ⟨y, foundy⟩ := exists_minimiser (h := h) (i := i) hb
    have least_x : h.Lowest i a x := lowest_of_minimiser foundx
    have least_y : h.Lowest i b y := lowest_of_minimiser foundy
    have equal : h.value i x = h.value i y := by rw [← least_x.toNat_least, ← least_y.toNat_least, same]
    have left : x ∈ a ++ b := List.mem_append_left b least_x.mem
    have shared : x = y := separated x left y (List.mem_append_right a least_y.mem) equal
    have overall : x = first := separated x left first lowest.mem ((least_x.append least_y equal).value_eq lowest)
    exact ⟨overall ▸ least_x.mem, overall ▸ shared ▸ least_y.mem⟩
  · rintro ⟨left, right⟩
    have in_a : h.Lowest i a first := lowest.of_subset (List.subset_append_left a b) left
    have in_b : h.Lowest i b first := lowest.of_subset (List.subset_append_right a b) right
    exact UInt64.toNat_inj.mp (in_a.toNat_least.trans in_b.toNat_least.symm)

theorem getElem?_signature (h : MinHash) (bag : Bag) (below : i < h.hashes) :
    (h.signature bag)[i]? = some (least (bag.map h.probe) i) := by
  rw [signature_eq, List.getElem?_map, List.getElem?_range below, Option.map_some]

theorem agreements_eq_shared (ha : a ≠ []) (hb : b ≠ []) (separated : ∀ i < h.hashes, h.Separates (a ++ b) i) :
    h.agreements a b =
      (List.range h.hashes).countP fun i => ∃ first ∈ h.minimiser? (a ++ b) i, first ∈ a ∧ first ∈ b := by
  rw [agreements_eq]
  refine List.countP_congr fun i listed => ?_
  obtain ⟨first, found⟩ := exists_minimiser (h := h) (i := i) (List.append_ne_nil_of_left_ne_nil ha b)
  have agree := least_eq_iff (separated i (List.mem_range.mp listed)) ha hb (lowest_of_minimiser found)
  simpa [found] using agree

theorem agreements_of_disjoint (ha : a ≠ []) (hb : b ≠ []) (separated : ∀ i < h.hashes, h.Separates (a ++ b) i)
    (disjoint : a.Disjoint b) : h.agreements a b = 0 := by
  rw [agreements_eq_shared ha hb separated, List.countP_eq_zero]
  intro i _
  rw [decide_eq_true_eq]
  rintro ⟨first, -, left, right⟩
  exact disjoint left right

end Agreement

/-- A function that separates the items of two bags finds an item of all that comes before all the others, and the
signatures agree on it exactly if this item occurs in both bags. So a family of such functions agrees so often as the
first item is common, and never on disjoint bags. -/
theorem agreement_iff_minimiser_shared (h : MinHash) {a b : Bag} (ha : a ≠ []) (hb : b ≠ []) :
    (∀ i < h.hashes, h.Separates (a ++ b) i → ∃ first u v,
      h.minimiser? (a ++ b) i = some first ∧ first ∈ a ++ b ∧
      (∀ data ∈ a ++ b, data ≠ first → h.value i first < h.value i data) ∧
      (h.signature a)[i]? = some u ∧ (h.signature b)[i]? = some v ∧ (u = v ↔ first ∈ a ∧ first ∈ b)) ∧
    ((∀ i < h.hashes, h.Separates (a ++ b) i) →
      let shared := (List.range h.hashes).countP fun i =>
        ∃ first ∈ h.minimiser? (a ++ b) i, first ∈ a ∧ first ∈ b
      h.agreements a b = shared ∧ h.similarity a b = ofCount shared / ofCount h.hashes ∧
      (a.Disjoint b → h.agreements a b = 0)) := by
  constructor
  · intro i below separated
    obtain ⟨first, found⟩ := exists_minimiser (h := h) (i := i) (List.append_ne_nil_of_left_ne_nil ha b)
    have lowest : h.Lowest i (a ++ b) first := lowest_of_minimiser found
    exact ⟨first, _, _, found, lowest.mem, lowest.lt_of_separates separated, getElem?_signature h a below,
      getElem?_signature h b below, least_eq_iff separated ha hb lowest⟩
  · intro separated shared
    have count : h.agreements a b = shared := agreements_eq_shared ha hb separated
    refine ⟨count, ?_, agreements_of_disjoint ha hb separated⟩
    rw [similarity_of_ne_nil h ha hb, count]

/-- Only its second item is shared, and only the third function takes that one first. -/
private def startingLow : Bag := [Hasher.wideDataOf 0 5, Hasher.wideDataOf 4 2, Hasher.wideDataOf 0 5]

private def startingHigh : Bag := [Hasher.wideDataOf 9 1, Hasher.wideDataOf 4 2]

private def apart : Bag := [Hasher.wideDataOf 9 1]

theorem third_function_agrees :
    let h : MinHash := ⟨3, .leadingBytes⟩
    (startingLow ≠ [] ∧ startingHigh ≠ [] ∧ ∀ i < h.hashes, h.Separates (startingLow ++ startingHigh) i) ∧
      h.minimiser? (startingLow ++ startingHigh) 1 = some (Hasher.wideDataOf 0 5) ∧
      (h.signature startingLow)[1]? ≠ (h.signature startingHigh)[1]? ∧
      h.minimiser? (startingLow ++ startingHigh) 2 = some (Hasher.wideDataOf 4 2) ∧
      (h.signature startingLow)[2]? = (h.signature startingHigh)[2]? ∧
      h.agreements startingLow startingHigh = 1 ∧
      h.similarity startingLow startingHigh = ofCount 1 / ofCount 3 ∧
      startingLow.Disjoint apart ∧ h.agreements startingLow apart = 0 := by
  intro h
  have low : startingLow ≠ [] := List.cons_ne_nil _ _
  have high : startingHigh ≠ [] := List.cons_ne_nil _ _
  have separated : ∀ i < h.hashes, h.Separates (startingLow ++ startingHigh) i := by decide
  have unshared : startingLow.Disjoint apart := by
    have different : ∀ data ∈ startingLow, data ∉ apart := by decide
    exact fun data => different data
  obtain ⟨each, together⟩ := agreement_iff_minimiser_shared h low high
  obtain ⟨count, share, -⟩ := together separated
  have once : ((List.range h.hashes).countP fun i => ∃ first ∈ h.minimiser? (startingLow ++ startingHigh) i,
      first ∈ startingLow ∧ first ∈ startingHigh) = 1 := by decide
  have five : h.minimiser? (startingLow ++ startingHigh) 1 = some (Hasher.wideDataOf 0 5) := by decide
  have eight : h.minimiser? (startingLow ++ startingHigh) 2 = some (Hasher.wideDataOf 4 2) := by decide
  have none_agrees : h.agreements startingLow apart = 0 :=
    ((agreement_iff_minimiser_shared h low (List.cons_ne_nil _ _)).2 (by decide)).2.2 unshared
  refine ⟨⟨low, high, separated⟩, five, ?_, eight, ?_, count.trans once, ?_, unshared, none_agrees⟩
  · obtain ⟨first, u, v, found, -, -, atLow, atHigh, iff⟩ := each 1 (by decide) (separated 1 (by decide))
    obtain rfl : Hasher.wideDataOf 0 5 = first := Option.some_injective _ (five.symm.trans found)
    rw [atLow, atHigh]
    intro same
    exact absurd (iff.mp (Option.some_injective _ same)).2 (by decide)
  · obtain ⟨first, u, v, found, -, -, atLow, atHigh, iff⟩ := each 2 (by decide) (separated 2 (by decide))
    obtain rfl : Hasher.wideDataOf 4 2 = first := Option.some_injective _ (eight.symm.trans found)
    rw [atLow, atHigh, iff.mpr (by decide)]
  · rw [share, once]

end Synopsis.Similarity.MinHash
