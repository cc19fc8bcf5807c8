import Synopsis.Presence.Cuckoo
import Mathlib

/-! The cuckoo table as a multiset of classes: a class is a fingerprint with the unordered pair of its
candidate buckets, which the bucket it lies in and the fingerprint determine. -/
namespace Synopsis.Presence.Cuckoo
open Hashing

variable {σ : Type}

/-- A fingerprint and the unordered pair of its candidate buckets. -/
abbrev Class := Fingerprint × Sym2 Nat

/-- The class of a fingerprint with candidate `i`. -/
def candidateClass (t : Cuckoo σ) (i : UInt32) (fingerprint : Fingerprint) : Class :=
  (fingerprint, s(t.bucketOf i, t.bucketOf (alternate t.hasher i fingerprint)))

/-- The class of a fingerprint lying in a bucket. -/
def bucketClass (t : Cuckoo σ) (bucket : Nat) (fingerprint : Fingerprint) : Class :=
  (fingerprint, s(bucket, (bucket ^^^ (t.hasher.word fingerprint).toNat) % t.buckets))

/-- The class of an item: its fingerprint and both of its buckets. -/
def classOf (t : Cuckoo σ) (data : ByteArray) : Class :=
  ((t.key data).fingerprint, s(t.bucketOf (t.key data).first, t.bucketOf (t.key data).second))

/-- The class in a slot, if the slot is in use. -/
def heldAt (t : Cuckoo σ) (slot : Nat) : Multiset Class :=
  match t.slots[slot]?.join with
  | some fingerprint => {t.bucketClass (slot / bucketSize) fingerprint}
  | none => 0

/-- All classes in the table, one copy for each slot in use. -/
def stored (t : Cuckoo σ) : Multiset Class := ∑ slot ∈ Finset.range t.slots.size, t.heldAt slot

theorem classOf_eq_candidateClass (t : Cuckoo σ) (data : ByteArray) :
    t.classOf data = t.candidateClass (t.key data).first (t.key data).fingerprint := rfl

/-- The relation of the two candidates is an involution. -/
theorem alternate_alternate (hasher : Hasher) (i : UInt32) (fingerprint : Fingerprint) :
    alternate hasher (alternate hasher i fingerprint) fingerprint = i := by
  simp only [alternate, UInt32.xor_assoc, UInt32.xor_self, UInt32.xor_zero]

theorem candidateClass_alternate (t : Cuckoo σ) (i : UInt32) (fingerprint : Fingerprint) :
    t.candidateClass (alternate t.hasher i fingerprint) fingerprint =
      t.candidateClass i fingerprint := by
  rw [candidateClass, alternate_alternate, Sym2.eq_swap]
  rfl

/-- With a power of two of buckets the exclusive or may be taken after the reduction, so the bucket of
a candidate tells as much as the candidate. -/
theorem bucketClass_bucketOf {t : Cuckoo σ} {bits : Nat} (h : t.buckets = 2 ^ bits) (i : UInt32)
    (fingerprint : Fingerprint) :
    t.bucketClass (t.bucketOf i) fingerprint = t.candidateClass i fingerprint := by
  have reduced : (t.bucketOf i ^^^ (t.hasher.word fingerprint).toNat) % t.buckets =
      t.bucketOf (alternate t.hasher i fingerprint) := by
    simp only [bucketOf, alternate, h, UInt32.toNat_xor, Nat.xor_mod_two_pow, Nat.mod_mod]
  rw [bucketClass, reduced]
  rfl

theorem mem_slotsOf {t : Cuckoo σ} {i : UInt32} {slot : Nat} :
    slot ∈ t.slotsOf i ↔ slot / bucketSize = t.bucketOf i := by
  simp only [slotsOf, bucketSize, List.mem_map, List.mem_range]
  constructor
  · rintro ⟨place, hplace, rfl⟩
    omega
  · intro h
    exact ⟨slot % 4, by omega, by omega⟩

theorem find?_eq_some {t : Cuckoo σ} {i : UInt32} {content : Option Fingerprint} {slot : Nat}
    (h : t.find? i content = some slot) :
    slot / bucketSize = t.bucketOf i ∧ t.slots[slot]? = some content := by
  have found := List.find?_some (p := fun slot => t.slots[slot]? == some content) h
  exact ⟨mem_slotsOf.mp (List.mem_of_find?_eq_some h), eq_of_beq found⟩

theorem find?_eq_none {t : Cuckoo σ} {i : UInt32} {content : Option Fingerprint} :
    t.find? i content = none ↔
      ∀ slot, slot / bucketSize = t.bucketOf i → t.slots[slot]? ≠ some content := by
  simp only [find?, List.find?_eq_none, mem_slotsOf, beq_iff_eq, ne_eq]

theorem slot_lt {t : Cuckoo σ} {slot : Nat} {content : Option Fingerprint}
    (h : t.slots[slot]? = some content) : slot < t.slots.size := by
  by_contra bad
  rw [Array.getElem?_eq_none (Nat.le_of_not_lt bad)] at h
  cases h

theorem heldAt_some {t : Cuckoo σ} {slot : Nat} {fingerprint : Fingerprint}
    (h : t.slots[slot]? = some (some fingerprint)) :
    t.heldAt slot = {t.bucketClass (slot / bucketSize) fingerprint} := by
  simp only [heldAt, h, Option.join_some]

theorem heldAt_none {t : Cuckoo σ} {slot : Nat} (h : t.slots[slot]? = some none) :
    t.heldAt slot = 0 := by
  simp only [heldAt, h, Option.join_some]

/-- The class in a slot of a candidate's bucket is the class that the candidate has. -/
theorem heldAt_candidate {t : Cuckoo σ} {bits : Nat} (h : t.buckets = 2 ^ bits) {slot : Nat}
    {i : UInt32} {fingerprint : Fingerprint} (home : slot / bucketSize = t.bucketOf i)
    (content : t.slots[slot]? = some (some fingerprint)) :
    t.heldAt slot = {t.candidateClass i fingerprint} := by
  rw [heldAt_some content, home, bucketClass_bucketOf h]

/-- Writing one slot exchanges what it held for what it holds now. -/
theorem stored_exchange {t u : Cuckoo σ} {slot : Nat} {content : Option Fingerprint}
    (inside : slot < t.slots.size) (slots : u.slots = t.slots.setIfInBounds slot content)
    (buckets : u.buckets = t.buckets) (hasher : u.hasher = t.hasher) :
    u.stored + t.heldAt slot = t.stored + u.heldAt slot := by
  have others : ∀ place ∈ (Finset.range t.slots.size).erase slot, u.heldAt place = t.heldAt place := by
    intro place hplace
    have apart : slot ≠ place := (Finset.ne_of_mem_erase hplace).symm
    simp only [heldAt, bucketClass, slots, buckets, hasher, Array.getElem?_setIfInBounds_ne apart]
  have size : u.slots.size = t.slots.size := by rw [slots, Array.size_setIfInBounds]
  have member : slot ∈ Finset.range t.slots.size := Finset.mem_range.mpr inside
  rw [stored, stored, size, ← Finset.add_sum_erase _ _ member, ← Finset.add_sum_erase _ t.heldAt member,
    Finset.sum_congr rfl others]
  abel

theorem mem_stored {t : Cuckoo σ} {c : Class} :
    c ∈ t.stored ↔ ∃ slot fingerprint, t.slots[slot]? = some (some fingerprint) ∧
      t.bucketClass (slot / bucketSize) fingerprint = c := by
  rw [stored, Multiset.mem_sum]
  constructor
  · rintro ⟨slot, -, member⟩
    cases content : t.slots[slot]?.join with
    | none => simp [heldAt, content] at member
    | some fingerprint =>
      refine ⟨slot, fingerprint, Option.join_eq_some_iff.mp content, ?_⟩
      simpa [heldAt, content, eq_comm] using member
  · rintro ⟨slot, fingerprint, content, rfl⟩
    refine ⟨slot, Finset.mem_range.mpr (slot_lt content), ?_⟩
    rw [heldAt_some content]
    exact Multiset.mem_singleton_self _

/-- Each slot in use contributes one class, whatever the hasher is. -/
theorem card_stored (t : Cuckoo σ) : t.stored.card = t.slots.countP Option.isSome := by
  have single (slot : Nat) : (t.heldAt slot).card = (t.slots.toList[slot]?.join.isSome).toNat := by
    rw [heldAt, Array.getElem?_toList]
    cases t.slots[slot]?.join with
    | none => rfl
    | some fingerprint => exact Multiset.card_singleton _
  have total (slots : List (Option Fingerprint)) :
      ∑ slot ∈ Finset.range slots.length, (slots[slot]?.join.isSome).toNat = slots.countP Option.isSome := by
    induction slots with
    | nil => rfl
    | cons content rest ih =>
      rw [List.length_cons, Finset.sum_range_succ', List.countP_cons, ← ih]
      cases content <;> rfl
  rw [stored, Multiset.card_sum, Finset.sum_congr rfl fun slot _ => single slot, ← Array.length_toList, total,
    Array.countP_toList]

end Synopsis.Presence.Cuckoo
