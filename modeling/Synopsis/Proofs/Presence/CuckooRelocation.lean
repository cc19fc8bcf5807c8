import Synopsis.Proofs.Presence.CuckooSlots

/-! What single operations do to the classes in a cuckoo table. A relocation of any length adds one copy
of the class it was started for, or, when it gives up, loses one copy of some class. -/
namespace Synopsis.Presence.Cuckoo
open Hashing Randomness

variable {σ : Type}

/-- A table with a power of two of buckets, all of their slots, and a true count. -/
structure Sound (t : Cuckoo σ) : Prop where
  buckets : ∃ bits, t.buckets = 2 ^ bits
  size : t.slots.size = bucketSize * t.buckets
  count : t.count = t.stored.card

/-- Nothing but slots, count and source of randomness differs. -/
structure SameShape (t u : Cuckoo σ) : Prop where
  buckets : u.buckets = t.buckets
  size : u.slots.size = t.slots.size
  fingerprintSize : u.fingerprintSize = t.fingerprintSize
  capacity : u.capacity = t.capacity
  maxKicks : u.maxKicks = t.maxKicks
  hasher : u.hasher = t.hasher

namespace SameShape

theorem refl (t : Cuckoo σ) : SameShape t t := ⟨rfl, rfl, rfl, rfl, rfl, rfl⟩

theorem trans {t u v : Cuckoo σ} (h : SameShape t u) (k : SameShape u v) : SameShape t v :=
  ⟨k.buckets.trans h.buckets, k.size.trans h.size, k.fingerprintSize.trans h.fingerprintSize,
    k.capacity.trans h.capacity, k.maxKicks.trans h.maxKicks, k.hasher.trans h.hasher⟩

theorem candidateClass {t u : Cuckoo σ} (h : SameShape t u) (i : UInt32) (fingerprint : Fingerprint) :
    u.candidateClass i fingerprint = t.candidateClass i fingerprint := by
  simp only [Cuckoo.candidateClass, bucketOf, h.buckets, h.hasher]

theorem key {t u : Cuckoo σ} (h : SameShape t u) (data : ByteArray) : u.key data = t.key data := by
  simp only [Cuckoo.key, h.hasher, h.fingerprintSize]

theorem classOf {t u : Cuckoo σ} (h : SameShape t u) : u.classOf = t.classOf := by
  funext data
  rw [classOf_eq_candidateClass, classOf_eq_candidateClass, h.key, h.candidateClass]

theorem store (t : Cuckoo σ) (slot : Nat) (fingerprint : Fingerprint) :
    SameShape t (t.store slot fingerprint) :=
  ⟨rfl, Array.size_setIfInBounds, rfl, rfl, rfl, rfl⟩

theorem put (t : Cuckoo σ) (slot : Nat) (fingerprint : Fingerprint) :
    SameShape t (t.put slot fingerprint) :=
  ⟨rfl, Array.size_setIfInBounds, rfl, rfl, rfl, rfl⟩

theorem free (t : Cuckoo σ) (slot : Nat) : SameShape t (t.free slot) :=
  ⟨rfl, Array.size_setIfInBounds, rfl, rfl, rfl, rfl⟩

end SameShape

theorem slot_content {t : Cuckoo σ} (sound : t.slots.size = bucketSize * t.buckets)
    {bits : Nat} (h : t.buckets = 2 ^ bits) {i : UInt32} {slot : Nat}
    (home : slot / bucketSize = t.bucketOf i) : ∃ content, t.slots[slot]? = some content := by
  have inside : t.bucketOf i < t.buckets := Nat.mod_lt _ (h ▸ Nat.two_pow_pos bits)
  have bound : slot < t.slots.size := by
    simp only [bucketSize] at sound home
    omega
  exact ⟨_, Array.getElem?_eq_getElem bound⟩

section Writes
variable {t : Cuckoo σ} {bits : Nat} (h : t.buckets = 2 ^ bits) {i : UInt32} {slot : Nat}
include h

/-- Filling a free slot of a candidate's bucket adds one copy of the candidate's class. -/
theorem stored_store (home : slot / bucketSize = t.bucketOf i) (free : t.slots[slot]? = some none)
    (fingerprint : Fingerprint) :
    (t.store slot fingerprint).stored = t.stored + {t.candidateClass i fingerprint} := by
  have written : (t.store slot fingerprint).slots[slot]? = some (some fingerprint) :=
    Array.getElem?_setIfInBounds_self_of_lt (slot_lt free)
  have shape := SameShape.store t slot fingerprint
  have exchange := stored_exchange (slot_lt free) (u := t.store slot fingerprint) rfl rfl rfl
  rw [heldAt_none free, add_zero,
    heldAt_candidate (t := t.store slot fingerprint) h (i := i) home written,
    shape.candidateClass] at exchange
  exact exchange

/-- An eviction trades the evicted class for the new one. -/
theorem stored_put (home : slot / bucketSize = t.bucketOf i) {evicted : Fingerprint}
    (used : t.slots[slot]? = some (some evicted)) (fingerprint : Fingerprint) :
    (t.put slot fingerprint).stored + {t.candidateClass i evicted} =
      t.stored + {t.candidateClass i fingerprint} := by
  have written : (t.put slot fingerprint).slots[slot]? = some (some fingerprint) :=
    Array.getElem?_setIfInBounds_self_of_lt (slot_lt used)
  have shape := SameShape.put t slot fingerprint
  have exchange := stored_exchange (slot_lt used) (u := t.put slot fingerprint) rfl rfl rfl
  rw [heldAt_candidate h home used,
    heldAt_candidate (t := t.put slot fingerprint) h (i := i) home written,
    shape.candidateClass] at exchange
  exact exchange

theorem stored_free (home : slot / bucketSize = t.bucketOf i) {fingerprint : Fingerprint}
    (used : t.slots[slot]? = some (some fingerprint)) :
    (t.free slot).stored + {t.candidateClass i fingerprint} = t.stored := by
  have written : (t.free slot).slots[slot]? = some none :=
    Array.getElem?_setIfInBounds_self_of_lt (slot_lt used)
  have exchange := stored_exchange (slot_lt used) (u := t.free slot) rfl rfl rfl
  rw [heldAt_candidate h home used, heldAt_none written, add_zero] at exchange
  exact exchange

end Writes

/-- How an insertion of a class ends: one copy more, or one copy of some class lost on the way. -/
inductive Stores (t : Cuckoo σ) (c : Class) : Outcome Unit → Cuckoo σ → Prop where
  | kept {u : Cuckoo σ} (shape : SameShape t u) (stored : u.stored = t.stored + {c})
      (count : u.count = t.count + 1) : Stores t c (.ok ()) u
  | dropped {u : Cuckoo σ} (lost : Class) (shape : SameShape t u)
      (stored : u.stored + {lost} = t.stored + {c}) (count : u.count = t.count) :
      Stores t c (.error (.full t.maxKicks)) u

/-- The walk goes on from a table that has traded one class for another. -/
theorem Stores.after_trade {t v u : Cuckoo σ} {c d : Class} {outcome : Outcome Unit}
    (shape : SameShape t v) (count : v.count = t.count) (trade : v.stored + {d} = t.stored + {c})
    (h : Stores v d outcome u) : Stores t c outcome u := by
  cases h with
  | kept inner stored counted =>
    exact .kept (shape.trans inner) (stored.trans trade) (by rw [counted, count])
  | dropped lost inner stored counted =>
    rw [shape.maxKicks]
    exact .dropped lost (shape.trans inner) (stored.trans trade) (counted.trans count)

theorem stores_free {t : Cuckoo σ} {bits : Nat} (h : t.buckets = 2 ^ bits) {i : UInt32} {slot : Nat}
    (free : t.find? i none = some slot) (fingerprint : Fingerprint) :
    Stores t (t.candidateClass i fingerprint) (.ok ()) (t.store slot fingerprint) := by
  obtain ⟨home, content⟩ := find?_eq_some free
  exact .kept (.store ..) (stored_store h home content fingerprint) rfl

theorem Stores.after_draw {t u : Cuckoo σ} (source : σ) {c : Class} {outcome : Outcome Unit}
    (h : Stores { t with source } c outcome u) : Stores t c outcome u :=
  h.after_trade (v := { t with source }) ⟨rfl, rfl, rfl, rfl, rfl, rfl⟩ rfl rfl

section Kick
variable [Source σ] (kicks : Nat) (t : Cuckoo σ) (i : UInt32) (fingerprint : Fingerprint)

/-- The table of a kick once the slot is drawn, and that slot. -/
def draw : Cuckoo σ × Nat :=
  ({ t with source := (below bucketSize t.source).2 },
    bucketSize * t.bucketOf i + (below bucketSize t.source).1)

theorem relocate_succ :
    relocate (kicks + 1) t i fingerprint =
      match t.slots[(t.draw i).2]?.join with
      | none => (.ok (), (t.draw i).1.store (t.draw i).2 fingerprint)
      | some evicted =>
        let moved := (t.draw i).1.put (t.draw i).2 fingerprint
        match moved.find? (alternate moved.hasher i evicted) none with
        | some slot => (.ok (), moved.store slot evicted)
        | none => relocate kicks moved (alternate moved.hasher i evicted) evicted := rfl

theorem relocate_free (free : t.slots[(t.draw i).2]? = some none) :
    relocate (kicks + 1) t i fingerprint =
      (.ok (), (t.draw i).1.store (t.draw i).2 fingerprint) := by
  rw [relocate_succ, congrArg Option.join free]
  rfl

theorem relocate_evict {evicted : Fingerprint}
    (used : t.slots[(t.draw i).2]? = some (some evicted)) :
    relocate (kicks + 1) t i fingerprint =
      let moved := (t.draw i).1.put (t.draw i).2 fingerprint
      match moved.find? (alternate moved.hasher i evicted) none with
      | some slot => (.ok (), moved.store slot evicted)
      | none => relocate kicks moved (alternate moved.hasher i evicted) evicted := by
  rw [relocate_succ, congrArg Option.join used]
  rfl

theorem draw_home : (t.draw i).2 / bucketSize = t.bucketOf i := by
  have place : (below bucketSize t.source).1 < 4 := below_lt (by decide) t.source
  simp only [draw, bucketSize] at place ⊢
  omega

end Kick

/-- Whatever is drawn and however long the walk is, it only moves what it does not lose. -/
theorem relocate_stores [Source σ] (kicks : Nat) {t : Cuckoo σ} {bits : Nat}
    (h : t.buckets = 2 ^ bits) (size : t.slots.size = bucketSize * t.buckets) (i : UInt32)
    (fingerprint : Fingerprint) :
    Stores t (t.candidateClass i fingerprint) (relocate kicks t i fingerprint).1
      (relocate kicks t i fingerprint).2 := by
  induction kicks generalizing t i fingerprint with
  | zero => exact .dropped (t.candidateClass i fingerprint) (.refl t) rfl rfl
  | succ kicks ih =>
    have home := t.draw_home i
    obtain ⟨content, held⟩ := slot_content size h home
    cases content with
    | none =>
      rw [relocate_free kicks t i fingerprint held]
      exact Stores.after_draw _ (.kept (.store ..) (stored_store h home held fingerprint) rfl)
    | some evicted =>
      rw [relocate_evict kicks t i fingerprint held]
      apply Stores.after_draw (below bucketSize t.source).2
      let moved := (t.draw i).1.put (t.draw i).2 fingerprint
      let j := alternate moved.hasher i evicted
      have shape : SameShape (t.draw i).1 moved := .put ..
      have still : moved.buckets = 2 ^ bits := h
      have trade : moved.stored + {moved.candidateClass j evicted} =
          t.stored + {t.candidateClass i fingerprint} := by
        rw [candidateClass_alternate, shape.candidateClass]
        exact stored_put (t := (t.draw i).1) h home held fingerprint
      apply Stores.after_trade shape rfl trade
      -- the evicted fingerprint has a free slot in its other bucket, or is in hand for the next kick
      cases found : moved.find? j none with
      | some free =>
        simp only [moved, j] at found
        simp only [found]
        exact stores_free still found evicted
      | none =>
        simp only [moved, j] at found
        simp only [found]
        exact ih still (shape.size.trans size) j evicted

theorem insertKey_stores [Source σ] {t : Cuckoo σ} (sound : Sound t) (data : ByteArray) :
    Stores t (t.classOf data) (t.insertKey (t.key data)).1 (t.insertKey (t.key data)).2 := by
  obtain ⟨bits, h⟩ := sound.buckets
  have swapped : t.classOf data = t.candidateClass (t.key data).second (t.key data).fingerprint :=
    (candidateClass_alternate t (t.key data).first (t.key data).fingerprint).symm
  cases first : t.find? (t.key data).first none with
  | some slot =>
    simp only [insertKey, first]
    exact stores_free h first _
  | none =>
    cases second : t.find? (t.key data).second none with
    | some slot =>
      simp only [insertKey, first, second]
      exact swapped ▸ stores_free h second _
    | none =>
      simp only [insertKey, first, second]
      let tossed : Cuckoo σ := { t with source := (coin t.source).2 }
      have walk := relocate_stores t.maxKicks (t := tossed) h sound.size
      apply Stores.after_draw (coin t.source).2
      cases (coin t.source).1 with
      | true => exact walk (t.key data).first (t.key data).fingerprint
      | false =>
        rw [swapped]
        exact walk (t.key data).second (t.key data).fingerprint

theorem Sound.check {t : Cuckoo σ} (sound : Sound t) : t.check = .ok () := by
  obtain ⟨bits, h⟩ := sound.buckets
  rw [Cuckoo.check, if_neg (h ▸ (Nat.two_pow_pos bits).ne')]

theorem insert_stores [Source σ] {t : Cuckoo σ} (sound : Sound t) (data : ByteArray) :
    Stores t (t.classOf data) (t.insert data).1 (t.insert data).2 := by
  simp only [insert, sound.check]
  exact insertKey_stores sound data

/-- The number of slots in use stays true whether or not the class found a place. -/
theorem Stores.sound {t u : Cuckoo σ} {c : Class} {outcome : Outcome Unit} (sound : Sound t)
    (h : Stores t c outcome u) : Sound u := by
  obtain ⟨bits, buckets⟩ := sound.buckets
  cases h with
  | kept shape stored count =>
    refine ⟨⟨bits, shape.buckets.trans buckets⟩, ?_, ?_⟩
    · rw [shape.size, shape.buckets, sound.size]
    · rw [count, stored, Multiset.card_add, Multiset.card_singleton, sound.count]
  | dropped lost shape stored count =>
    refine ⟨⟨bits, shape.buckets.trans buckets⟩, ?_, ?_⟩
    · rw [shape.size, shape.buckets, sound.size]
    · have cards := congrArg Multiset.card stored
      simp only [Multiset.card_add, Multiset.card_singleton, Nat.add_right_cancel_iff] at cards
      rw [count, sound.count, cards]

/-- A fingerprint that lies in one of an item's buckets has the item's class, wherever it came from. -/
theorem locate?_eq_some {t : Cuckoo σ} {data : ByteArray} {slot : Nat} (found : t.locate? (t.key data) = some slot) :
    ∃ i, slot / bucketSize = t.bucketOf i ∧
      t.slots[slot]? = some (some (t.key data).fingerprint) ∧
      t.candidateClass i (t.key data).fingerprint = t.classOf data := by
  rcases Option.or_eq_some_iff.mp found with first | ⟨-, second⟩
  · obtain ⟨home, content⟩ := find?_eq_some first
    exact ⟨_, home, content, rfl⟩
  · obtain ⟨home, content⟩ := find?_eq_some second
    exact ⟨_, home, content, candidateClass_alternate ..⟩

theorem locate?_eq_none {t : Cuckoo σ} {data : ByteArray} (missing : t.locate? (t.key data) = none) :
    t.classOf data ∉ t.stored := by
  obtain ⟨first, second⟩ := Option.or_eq_none_iff.mp missing
  intro member
  obtain ⟨slot, fingerprint, content, same⟩ := mem_stored.mp member
  simp only [bucketClass, classOf, Prod.mk.injEq, Sym2.eq_iff] at same
  obtain ⟨rfl, ⟨home, -⟩ | ⟨home, -⟩⟩ := same
  · exact find?_eq_none.mp first slot home content
  · exact find?_eq_none.mp second slot home content

theorem contains_eq {t : Cuckoo σ} (sound : Sound t) (data : ByteArray) :
    t.contains data = .ok (decide (t.classOf data ∈ t.stored)) := by
  obtain ⟨bits, h⟩ := sound.buckets
  simp only [contains, sound.check]
  cases found : t.locate? (t.key data) with
  | none => simp only [locate?_eq_none found, decide_false]; rfl
  | some slot =>
    obtain ⟨i, home, content, same⟩ := locate?_eq_some found
    have member : t.classOf data ∈ t.stored := by
      rw [← same, ← bucketClass_bucketOf h, ← home]
      exact mem_stored.mpr ⟨slot, _, content, rfl⟩
    simp only [member, decide_true]
    rfl

/-- An erasure takes exactly one copy of the item's class, or finds none. -/
theorem containsThenErase_eq {t : Cuckoo σ} (sound : Sound t) (data : ByteArray) :
    ∃ u, t.containsThenErase data = .ok (decide (t.classOf data ∈ t.stored), u) ∧ Sound u ∧
      SameShape t u ∧ u.stored = t.stored.erase (t.classOf data) := by
  obtain ⟨bits, h⟩ := sound.buckets
  simp only [containsThenErase, sound.check]
  cases found : t.locate? (t.key data) with
  | none =>
    have missing := locate?_eq_none found
    refine ⟨t, ?_, sound, .refl t, (Multiset.erase_of_notMem missing).symm⟩
    simp only [missing, decide_false]
    rfl
  | some slot =>
    obtain ⟨i, home, content, same⟩ := locate?_eq_some found
    have taken := stored_free h home content
    rw [same] at taken
    have member : t.classOf data ∈ t.stored := taken ▸ Multiset.mem_add.mpr (.inr (by simp))
    have shape := SameShape.free t slot
    refine ⟨t.free slot, ?_, ⟨⟨bits, h⟩, ?_, ?_⟩, shape, ?_⟩
    · simp only [member, decide_true]
      rfl
    · rw [shape.size, shape.buckets, sound.size]
    · have cards := congrArg Multiset.card taken
      rw [Multiset.card_add, Multiset.card_singleton, ← sound.count] at cards
      change t.count - 1 = _
      omega
    · rw [← taken, Multiset.add_comm, Multiset.singleton_add, Multiset.erase_cons_head]

theorem stored_replicate_none {t : Cuckoo σ} {n : Nat} (h : t.slots = Array.replicate n none) :
    t.stored = 0 := by
  refine Finset.sum_eq_zero fun slot hslot => ?_
  rw [h, Array.size_replicate, Finset.mem_range] at hslot
  exact heldAt_none (by rw [h, Array.getElem?_replicate, if_pos hslot])

end Synopsis.Presence.Cuckoo
