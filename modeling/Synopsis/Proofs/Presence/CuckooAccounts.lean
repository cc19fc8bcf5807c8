import Synopsis.Proofs.Presence.ClearedTables
import Synopsis.Proofs.Presence.CuckooLosses

/-! The accounts of a cuckoo table: its slots, its fingerprints and its count, whatever is inserted, taken out or
lost, also where another hasher has parted fingerprints from their buckets. -/
namespace Synopsis.Presence.Cuckoo
open Hashing Randomness

variable {σ : Type}

section FreeSlots
variable [Source σ]

/-- What a kick does where the slot that it drew is free. -/
abbrev OnFree (σ : Type) := Cuckoo σ → Nat → Fingerprint → Outcome Unit × Cuckoo σ

variable (free : OnFree σ)

/-- The relocation with any handling of a drawn slot that is free. -/
def relocateOr : (kicks : Nat) → Cuckoo σ → (i : UInt32) → Fingerprint → Outcome Unit × Cuckoo σ
  | 0, t, _, _ => (.error (.full t.maxKicks), t)
  | kicks + 1, t, i, fingerprint =>
    match t.slots[(t.draw i).2]?.join with
    | none => free (t.draw i).1 (t.draw i).2 fingerprint
    | some evicted =>
      let moved := (t.draw i).1.put (t.draw i).2 fingerprint
      match moved.find? (alternate moved.hasher i evicted) none with
      | some slot => (.ok (), moved.store slot evicted)
      | none => relocateOr kicks moved (alternate moved.hasher i evicted) evicted

def insertKeyOr (t : Cuckoo σ) (k : Key) : Outcome Unit × Cuckoo σ :=
  match t.find? k.first none with
  | some slot => (.ok (), t.store slot k.fingerprint)
  | none =>
    match t.find? k.second none with
    | some slot => (.ok (), t.store slot k.fingerprint)
    | none =>
      let (heads, source) := coin t.source
      relocateOr free t.maxKicks { t with source } (if heads then k.first else k.second) k.fingerprint

/-- The insertion with any handling of a drawn slot that is free. -/
def insertOr (t : Cuckoo σ) (data : ByteArray) : Outcome Unit × Cuckoo σ :=
  match t.check with
  | .error e => (.error e, t)
  | .ok () => t.insertKeyOr free (t.key data)

theorem relocateOr_store (kicks : Nat) (t : Cuckoo σ) (i : UInt32) (fingerprint : Fingerprint) :
    relocateOr (fun t slot fingerprint => (.ok (), t.store slot fingerprint)) kicks t i fingerprint =
      relocate kicks t i fingerprint := by
  induction kicks generalizing t i fingerprint with
  | zero => rfl
  | succ kicks ih =>
    rw [relocate_succ, relocateOr]
    cases t.slots[(t.draw i).2]?.join with
    | none => rfl
    | some evicted =>
      let moved := (t.draw i).1.put (t.draw i).2 fingerprint
      dsimp only
      cases moved.find? (alternate moved.hasher i evicted) none with
      | some slot => rfl
      | none => exact ih ..

/-- Insertions store a fingerprint in a free slot that they drew. -/
theorem insertOr_store (t : Cuckoo σ) (data : ByteArray) :
    t.insertOr (fun t slot fingerprint => (.ok (), t.store slot fingerprint)) data = t.insert data := by
  rw [insertOr, insert]
  cases t.check with
  | error e => rfl
  | ok _ =>
    dsimp only [insertKeyOr, insertKey]
    cases t.find? (t.key data).first none with
    | some slot => rfl
    | none =>
      cases t.find? (t.key data).second none with
      | some slot => rfl
      | none => exact relocateOr_store ..

/-- A walk that starts at a full bucket goes on to full buckets only, so that every slot it draws is in use. -/
theorem relocateOr_eq {bits : Nat} (kicks : Nat) {t : Cuckoo σ} (h : t.buckets = 2 ^ bits)
    (size : t.slots.size = bucketSize * t.buckets) {i : UInt32} (full : t.find? i none = none)
    (fingerprint : Fingerprint) : relocateOr free kicks t i fingerprint = relocate kicks t i fingerprint := by
  induction kicks generalizing t i fingerprint with
  | zero => rfl
  | succ kicks ih =>
    obtain ⟨content, held⟩ := slot_content size h (t.draw_home i)
    cases content with
    | none => exact absurd held (find?_eq_none.mp full _ (t.draw_home i))
    | some evicted =>
      let moved := (t.draw i).1.put (t.draw i).2 fingerprint
      have shape : SameShape (t.draw i).1 moved := .put ..
      rw [relocate_evict kicks t i fingerprint held, relocateOr, congrArg Option.join held]
      dsimp only [Option.join_some]
      cases found : moved.find? (alternate moved.hasher i evicted) none with
      | some slot => rfl
      | none => exact ih (t := moved) h (shape.size.trans size) found evicted

theorem Sound.insertOr_eq {t : Cuckoo σ} (sound : Sound t) (data : ByteArray) :
    t.insertOr free data = t.insert data := by
  obtain ⟨bits, h⟩ := sound.buckets
  simp only [insertOr, insert, sound.check]
  cases first : t.find? (t.key data).first none with
  | some slot => simp only [insertKeyOr, insertKey, first]
  | none =>
    cases second : t.find? (t.key data).second none with
    | some slot => simp only [insertKeyOr, insertKey, first, second]
    | none =>
      simp only [insertKeyOr, insertKey, first, second]
      apply relocateOr_eq free t.maxKicks (t := { t with source := (coin t.source).2 }) h sound.size
      cases (coin t.source).1 with
      | true => exact first
      | false => exact second

end FreeSlots

/-- Whole buckets of fingerprints of one size, and a count of the slots in use. -/
structure Accounted (t : Cuckoo σ) : Prop where
  power : t.buckets = 0 ∨ ∃ bits, t.buckets = 2 ^ bits
  size : t.slots.size = bucketSize * t.buckets
  short : t.fingerprintSize ≤ 12
  fingerprints (slot : Nat) (fingerprint : Fingerprint) (content : t.slots[slot]? = some (some fingerprint)) :
    fingerprint.size = t.fingerprintSize
  count : t.count = t.slots.countP Option.isSome

/-- Twelve bytes of a digest are left for a fingerprint. -/
theorem size_fingerprint {t : Cuckoo σ} (short : t.fingerprintSize ≤ 12) (data : ByteArray) :
    (t.classOf data).1.size = t.fingerprintSize := by
  change (List.toByteArray _).size = _
  rw [List.size_toByteArray, List.length_take, List.length_drop, Digest.length_toBytes]
  omega

theorem Accounted.sound {t : Cuckoo σ} (accounts : Accounted t) (some_buckets : t.buckets ≠ 0) : Sound t := by
  refine ⟨accounts.power.resolve_left some_buckets, accounts.size, ?_⟩
  rw [accounts.count, card_stored]

theorem Accounted.whole {t : Cuckoo σ} (accounts : Accounted t) : t.buckets = 0 ∨ Sound t :=
  (eq_or_ne t.buckets 0).imp_right accounts.sound

/-- What a step stores was stored before or is the item's own. -/
theorem Accounted.next {t u : Cuckoo σ} (accounts : Accounted t) (sound : Sound u) (shape : SameShape t u)
    {data : ByteArray} (held : u.stored ≤ t.stored + {t.classOf data}) : Accounted u := by
  have short := accounts.short
  refine ⟨.inr sound.buckets, sound.size, shape.fingerprintSize ▸ short, fun slot fingerprint content => ?_, ?_⟩
  · have member := Multiset.mem_of_le held (mem_stored.mpr ⟨slot, fingerprint, content, rfl⟩)
    rw [shape.fingerprintSize]
    rcases Multiset.mem_add.mp member with before | own
    · obtain ⟨place, same, there, equal⟩ := mem_stored.mp before
      rw [← accounts.fingerprints place same there, (Prod.mk.inj equal).1]
    · rw [← size_fingerprint short data, ← Multiset.mem_singleton.mp own, bucketClass]
  · rw [sound.count, card_stored]

theorem Stores.held_le {t u : Cuckoo σ} {c : Class} {outcome : Outcome Unit} (h : Stores t c outcome u) :
    u.stored ≤ t.stored + {c} := by
  cases h with
  | kept _ stored _ => exact stored.le
  | dropped lost _ stored _ => exact stored ▸ Multiset.le_add_right ..

theorem Accounted.empty {t : Cuckoo σ} (power : t.buckets = 0 ∨ ∃ bits, t.buckets = 2 ^ bits)
    (short : t.fingerprintSize ≤ 12) (slots : t.slots = Array.replicate (bucketSize * t.buckets) none)
    (count : t.count = 0) : Accounted t := by
  refine ⟨power, by rw [slots, Array.size_replicate], short, fun slot fingerprint content => ?_, ?_⟩
  · rw [slots, Array.getElem?_replicate] at content
    split at content <;> cases content
  · rw [count, ← card_stored, stored_replicate_none slots, Multiset.card_zero]

/-- The buckets and the fingerprints are of the same number and size. -/
structure SameLayout (t u : Cuckoo σ) : Prop where
  buckets : u.buckets = t.buckets
  fingerprintSize : u.fingerprintSize = t.fingerprintSize

theorem SameShape.layout {t u : Cuckoo σ} (shape : SameShape t u) : SameLayout t u :=
  ⟨shape.buckets, shape.fingerprintSize⟩

theorem Accounted.erased {t u : Cuckoo σ} (accounts : Accounted t) {data : ByteArray}
    (erased : t.containsThenErase data = .ok (true, u)) : u.count + 1 = t.count := by
  by_cases no_buckets : t.buckets = 0
  · rw [containsThenErase, check, if_pos no_buckets] at erased
    cases erased
  · have sound := accounts.sound no_buckets
    obtain ⟨v, answer, after, -, stored⟩ := containsThenErase_eq sound data
    rw [answer] at erased
    obtain ⟨member, rfl⟩ := Prod.mk.inj (Except.ok.inj erased)
    rw [after.count, sound.count, stored, Multiset.card_erase_add_one (of_decide_eq_true member)]

section Runs
variable [Source σ]

/-- What a request leaves: the table as it was, the empty one, or one whose fingerprints were stored before or are an
item's own. -/
theorem step_cases {t : Cuckoo σ} (whole : t.buckets = 0 ∨ Sound t) (request : Request) :
    (t.step request).2 = t ∨ (t.step request).2 = t.clear ∨ Sound (t.step request).2 ∧
      SameShape t (t.step request).2 ∧ ∃ data, (t.step request).2.stored ≤ t.stored + {t.classOf data} := by
  rcases whole with no_buckets | sound
  · exact (step_of_no_buckets no_buckets request).1.imp_right .inl
  have inserted (data : ByteArray) : Sound (t.insert data).2 ∧ SameShape t (t.insert data).2 ∧
      ∃ data', (t.insert data).2.stored ≤ t.stored + {t.classOf data'} := by
    have stores := insert_stores sound data
    exact ⟨stores.sound sound, stores.shape, data, stores.held_le⟩
  cases request with
  | insert data => exact .inr (.inr (inserted data))
  | contains data => exact .inl rfl
  | containsThenInsert data =>
    by_cases member : t.classOf data ∈ t.stored
    · simp only [Cuckoo.step, containsThenInsert, contains_eq sound, member, decide_true]
      exact .inl trivial
    · simp only [Cuckoo.step, containsThenInsert, contains_eq sound, member, decide_false]
      exact .inr (.inr (inserted data))
  | containsThenErase data =>
    obtain ⟨u, answer, after, shape, stored⟩ := containsThenErase_eq sound data
    have taken : (t.step (.containsThenErase data)).2 = u := by
      rw [Cuckoo.step, answer]
      rfl
    have held : u.stored ≤ t.stored + {t.classOf data} :=
      stored ▸ (Multiset.erase_le ..).trans (Multiset.le_add_right ..)
    rw [taken]
    exact .inr (.inr ⟨after, shape, data, held⟩)
  | clear => exact .inr (.inl rfl)

theorem Accounted.step {t : Cuckoo σ} (accounts : Accounted t) (request : Request) :
    Accounted (t.step request).2 ∧ SameLayout t (t.step request).2 := by
  rcases step_cases accounts.whole request with same | cleared | ⟨sound, shape, data, held⟩
  · rw [same]
    exact ⟨accounts, rfl, rfl⟩
  · rw [cleared]
    exact ⟨.empty accounts.power accounts.short rfl rfl, rfl, rfl⟩
  · exact ⟨accounts.next sound shape held, shape.layout⟩

theorem Accounted.insertOr_eq {t : Cuckoo σ} (accounts : Accounted t) (free : OnFree σ) (data : ByteArray) :
    t.insertOr free data = t.insert data := by
  by_cases no_buckets : t.buckets = 0
  · rw [insertOr, Cuckoo.insert, check, if_pos no_buckets]
  · exact (accounts.sound no_buckets).insertOr_eq free data

/-- A new table of a configuration, for fingerprints of a given size. -/
def Config.table (c : Config) (size : Nat) (hasher : Hasher) (source : σ) : Cuckoo σ :=
  empty (bucketsFor c.capacity size) size c.capacity c.maxKicks hasher source

theorem run_accounted (c : Config) {size : Nat} (short : size ≤ 12) (hasher : Hasher) (source : σ)
    (actions : List (Action Request)) :
    let start := c.table size hasher source
    let t := (lifecycle σ c).run start actions
    Accounted t ∧ SameLayout start t := by
  intro start t
  refine Lifecycle.run_keeps (l := lifecycle σ c) (P := fun t => Accounted t ∧ SameLayout start t) ?_ ?_ ?_ actions
  · rintro t request ⟨accounts, layout⟩
    obtain ⟨still, next⟩ := accounts.step request
    exact ⟨still, next.buckets.trans layout.buckets, next.fingerprintSize.trans layout.fingerprintSize⟩
  · rintro t other ⟨accounts, layout⟩
    exact ⟨⟨accounts.power, accounts.size, accounts.short, accounts.fingerprints, accounts.count⟩, layout.buckets,
      layout.fingerprintSize⟩
  · exact ⟨.empty (bucketsFor_eq ..) short rfl rfl, rfl, rfl⟩

end Runs

/-- A table that a configuration accepts has fingerprints of at most twelve bytes. Whatever is done to such a table,
failed insertions and changes of the hasher included, it keeps its buckets of four slots, its fingerprints have one
size, the count is the number of slots in use, and an erasure counts down from a positive number. Insertions would not
notice if a relocation did anything else with a free slot that it drew. -/
theorem slots_are_accounted_for [Source σ] (c : Config) (hasher : Hasher) (source : σ) :
    (∀ start, ofConfigWith { c with hasher } source = .ok start → ∃ size ≤ 12, start = c.table size hasher source) ∧
    ∀ size ≤ 12, ∀ actions : List (Action Request),
      let t := (lifecycle σ c).run (c.table size hasher source) actions
      t.buckets = bucketsFor c.capacity size ∧ t.fingerprintSize = size ∧
      t.slots.size = bucketSize * t.buckets ∧
      (∀ (slot : Nat) (fingerprint : Fingerprint), t.slots[slot]? = some (some fingerprint) →
        fingerprint.size = size) ∧
      t.count = t.slots.countP Option.isSome ∧ t.count ≤ bucketSize * t.buckets ∧
      (∀ data u, t.containsThenErase data = .ok (true, u) → u.count + 1 = t.count) ∧
      ∀ free data, t.insertOr free data = t.insert data := by
  constructor
  · intro start made
    obtain ⟨_, -, made⟩ := bind_eq_ok.mp made
    exact ⟨fingerprintSizeFor c.falsePositiveRate, Nat.min_le_right .., (Except.ok.inj made).symm⟩
  · intro size short actions t
    obtain ⟨accounts, layout⟩ := run_accounted c short hasher source actions
    have sizes (slot : Nat) (fingerprint : Fingerprint) (content : t.slots[slot]? = some (some fingerprint)) :
        fingerprint.size = size := (accounts.fingerprints slot fingerprint content).trans layout.fingerprintSize
    have bound : t.count ≤ bucketSize * t.buckets := by
      rw [← accounts.size, accounts.count]
      exact Array.countP_le_size
    exact ⟨layout.buckets, layout.fingerprintSize, accounts.size, sizes, accounts.count, bound,
      fun data u => accounts.erased, fun free data => accounts.insertOr_eq free data⟩

/-- One bucket, and three kicks. -/
private def narrow : Config := { capacity := 1, maxKicks := 3, hasher := .leadingBytes }

private def firstSlots : ChaCha.Stream := ⟨.replicate 8 0, List.replicate 10 0, 0⟩

private def blind : Hasher := ⟨"blind", fun _ => .ofBytes []⟩

/-- The fifth insertion fails, and so does the one after the hasher has changed; the erasure takes what that one left
in a slot. -/
private def overfilling : List (Action Request) :=
  [1, 2, 3, 4, 5].map (fun tag => .operation (.insert (Hasher.dataOf 0 tag))) ++
    [.withHasher blind, .operation (.insert (Hasher.dataOf 0 6)), .operation (.containsThenErase (Hasher.dataOf 0 7))]

private def narrowAfter (actions : List (Action Request)) : Cuckoo ChaCha.Stream :=
  (lifecycle _ narrow).run (narrow.table 12 .leadingBytes firstSlots) actions

theorem overfilled_bucket_is_accounted_for :
    (∃ made, ofConfigWith narrow firstSlots = .ok made ∧
      ∃ size ≤ 12, made = narrow.table size .leadingBytes firstSlots) ∧
    ((narrowAfter (overfilling.take 4)).insert (Hasher.dataOf 0 5)).1 = .error (.full 3) ∧
    (narrowAfter overfilling).count = 3 ∧ (narrowAfter overfilling).slots.countP Option.isSome = 3 ∧
    (∀ fingerprint : Fingerprint, (narrowAfter overfilling).slots[1]? = some (some fingerprint) →
      fingerprint.size = 12) ∧
    ∀ free data, (narrowAfter overfilling).insertOr free data = (narrowAfter overfilling).insert data := by
  obtain ⟨made, accounts⟩ := slots_are_accounted_for narrow .leadingBytes firstSlots
  have valid : narrow.validate = .ok () :=
    bind_eq_ok.mpr ⟨(), rfl, bind_eq_ok.mpr ⟨(), require_eq_ok.mpr (by decide +kernel), rfl⟩⟩
  have accepted : ofConfigWith narrow firstSlots =
      .ok (narrow.table (fingerprintSizeFor narrow.falsePositiveRate) .leadingBytes firstSlots) :=
    bind_eq_ok.mpr ⟨(), valid, rfl⟩
  have failed : ((narrowAfter (overfilling.take 4)).insert (Hasher.dataOf 0 5)).1 = .error (.full 3) := rfl
  have three : (narrowAfter overfilling).count = 3 := rfl
  obtain ⟨-, -, -, sizes, count, -, -, unnoticed⟩ := accounts 12 le_rfl overfilling
  exact ⟨⟨_, accepted, made _ accepted⟩, failed, three, count.symm.trans three, sizes 1, unnoticed⟩

end Synopsis.Presence.Cuckoo
