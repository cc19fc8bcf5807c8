import Synopsis.Proofs.Folds
import Synopsis.Proofs.Presence.CuckooBag

/-! What a cuckoo filter loses when an insertion gives up. Relocations move fingerprints between their own
two buckets only, and the one left in hand at the end is the only one missing. -/
namespace Synopsis.Presence.Cuckoo
open Hashing Randomness

variable {σ : Type}

/-- The table holds the classes of some of the items that were offered to it. -/
def Retains (classOf : ByteArray → Class) (offers : Multiset ByteArray) (t : Cuckoo σ) : Prop :=
  ∃ items ≤ offers, Holds classOf t (items.map classOf)

/-- The number of buckets is a power of two, unless all of it was lost in a carry. -/
theorem bucketsFor_eq (capacity fingerprintSize : Nat) :
    bucketsFor capacity fingerprintSize = 0 ∨ ∃ bits, bucketsFor capacity fingerprintSize = 2 ^ bits := by
  have power (n : Nat) : ∃ bits, Numeric.powerOfTwoFrom n = 2 ^ bits := by
    rw [Numeric.powerOfTwoFrom]
    split
    · exact ⟨0, rfl⟩
    · exact ⟨_, Nat.one_shiftLeft _⟩
  obtain ⟨bits, same⟩ := power (max 1 (capacity / fingerprintSize * 8 % UInt64.size))
  rw [bucketsFor, same]
  by_cases small : bits < 64
  · exact .inr ⟨bits, Nat.mod_eq_of_lt (Nat.pow_lt_pow_right (by decide) small)⟩
  · exact .inl (Nat.mod_eq_zero_of_dvd (Nat.pow_dvd_pow 2 (Nat.le_of_not_lt small)))

section Steps
variable {classOf : ByteArray → Class} {offers items : Multiset ByteArray} {t u : Cuckoo σ}

theorem Stores.shape {c : Class} {outcome : Outcome Unit} (h : Stores t c outcome u) : SameShape t u := by
  cases h with
  | kept shape _ _ => exact shape
  | dropped _ shape _ _ => exact shape

/-- However an insertion ends, what is held are the classes of items that were held or offered. -/
theorem Holds.stores (h : Holds classOf t (items.map classOf)) {data : ByteArray} {outcome : Outcome Unit}
    (stores : Stores t (t.classOf data) outcome u) :
    ∃ left ≤ items + {data}, Holds classOf u (left.map classOf) := by
  have sound := stores.sound h.sound
  have classes := stores.shape.classOf.trans h.classes
  have all : (items + {data}).map classOf = t.stored + {t.classOf data} := by
    rw [Multiset.map_add, Multiset.map_singleton, h.stored, h.classes]
  cases stores with
  | kept _ stored _ => exact ⟨_, le_rfl, sound, classes, stored.trans all.symm⟩
  | dropped lost _ stored _ =>
    have listed : lost ∈ (items + {data}).map classOf := by
      rw [all, ← stored]
      exact Multiset.mem_add.mpr (.inr (Multiset.mem_singleton_self lost))
    obtain ⟨item, member, rfl⟩ := Multiset.mem_map.mp listed
    refine ⟨_, Multiset.erase_le item _, sound, classes, ?_⟩
    rw [Multiset.map_erase_of_mem classOf _ member, all, ← stored, add_comm, Multiset.singleton_add,
      Multiset.erase_cons_head]

theorem Retains.more (h : Retains classOf offers t) (others : Multiset ByteArray) :
    Retains classOf (offers + others) t := by
  obtain ⟨items, some_offered, holds⟩ := h
  exact ⟨items, some_offered.trans (Multiset.le_add_right ..), holds⟩

theorem Retains.insert [Source σ] (h : Retains classOf offers t) (data : ByteArray) :
    Retains classOf (offers + {data}) (t.insert data).2 := by
  obtain ⟨items, some_offered, holds⟩ := h
  obtain ⟨left, part, after⟩ := holds.stores (insert_stores holds.sound data)
  exact ⟨left, part.trans (add_le_add_left some_offered _), after⟩

theorem Retains.step [Source σ] (h : Retains classOf offers t) (request : Request) :
    Retains classOf (offers + offered [request]) (t.step request).2 := by
  obtain ⟨items, some_offered, holds⟩ := id h
  cases request with
  | insert data => exact h.insert data
  | contains data => exact h.more _
  | containsThenInsert data =>
    simp only [Cuckoo.step, containsThenInsert, contains_eq holds.sound]
    by_cases member : t.classOf data ∈ t.stored
    · simp only [member, decide_true]
      exact h.more _
    · simp only [member, decide_false]
      exact h.insert data
  | containsThenErase data =>
    obtain ⟨u, answer, sound, shape, stored⟩ := containsThenErase_eq holds.sound data
    have classes := shape.classOf.trans holds.classes
    have after : (t.step (.containsThenErase data)).2 = u := by
      rw [Cuckoo.step, answer]
      rfl
    rw [after]
    rw [holds.stored, holds.classes] at stored
    by_cases member : classOf data ∈ items.map classOf
    · obtain ⟨item, held, same⟩ := Multiset.mem_map.mp member
      refine ⟨items.erase item, (Multiset.erase_le _ _).trans ?_, sound, classes, ?_⟩
      · exact some_offered.trans (Multiset.le_add_right ..)
      · rw [stored, Multiset.map_erase_of_mem classOf _ held, same]
    · rw [Multiset.erase_of_notMem member] at stored
      exact Retains.more ⟨items, some_offered, sound, classes, stored⟩ _
  | clear => exact ⟨0, Multiset.zero_le _, clear_holds holds⟩

/-- A key is refused only where its buckets have no free slot. -/
theorem insertKey_failed [Source σ] {k : Key} {failure : Failure}
    (failed : (t.insertKey k).1 = .error failure) :
    t.find? k.first none = none ∧ t.find? k.second none = none := by
  cases first : t.find? k.first none with
  | some slot =>
    simp only [insertKey, first] at failed
    cases failed
  | none =>
    cases second : t.find? k.second none with
    | some slot =>
      simp only [insertKey, first, second] at failed
      cases failed
    | none => exact ⟨rfl, rfl⟩

theorem insert_failed [Source σ] (sound : Sound t) {data : ByteArray} {failure : Failure}
    (failed : (t.insert data).1 = .error failure) :
    ∀ slot, slot / bucketSize ∈ (t.classOf data).2 →
      ∃ fingerprint, t.slots[slot]? = some (some fingerprint) := by
  obtain ⟨bits, h⟩ := sound.buckets
  simp only [insert, sound.check] at failed
  obtain ⟨first, second⟩ := insertKey_failed failed
  have used {i : UInt32} {slot : Nat} (full : t.find? i none = none)
      (home : slot / bucketSize = t.bucketOf i) :
      ∃ fingerprint, t.slots[slot]? = some (some fingerprint) := by
    obtain ⟨content, there⟩ := slot_content sound.size h home
    cases content with
    | none => exact absurd there (find?_eq_none.mp full slot home)
    | some fingerprint => exact ⟨fingerprint, there⟩
  intro slot home
  rcases Sym2.mem_iff.mp home with home | home
  · exact used first home
  · exact used second home

/-- Tests of an item agree where its own class is stored in both tables or in none. -/
theorem contains_congr (mine : Sound t) (theirs : Sound u) (classes : u.classOf = t.classOf)
    {data : ByteArray} (same : t.classOf data ∈ u.stored ↔ t.classOf data ∈ t.stored) :
    u.contains data = t.contains data := by
  rw [contains_eq mine, contains_eq theirs, classes]
  exact congrArg Except.ok (decide_eq_decide.mpr same)

/-- A fingerprint lies in one of the two buckets of an item that it was made from. -/
theorem Holds.home (h : Holds classOf t (items.map classOf)) {slot : Nat} {fingerprint : Fingerprint}
    (content : t.slots[slot]? = some (some fingerprint)) :
    ∃ item ∈ items, (classOf item).1 = fingerprint ∧ slot / bucketSize ∈ (classOf item).2 := by
  have member : t.bucketClass (slot / bucketSize) fingerprint ∈ items.map classOf := by
    rw [← h.stored]
    exact mem_stored.mpr ⟨slot, fingerprint, content, rfl⟩
  obtain ⟨item, held, same⟩ := Multiset.mem_map.mp member
  refine ⟨item, held, ?_⟩
  rw [same]
  exact ⟨rfl, Sym2.mem_mk_left ..⟩

/-- A request to insert fails as the insertion does, and leaves what the insertion leaves. -/
theorem step_failed [Source σ] (sound : Sound t) {request : Request} {data : ByteArray}
    (inserts : offer? request = some data) {failure : Failure}
    (failed : (t.step request).1 = .error failure) :
    (t.insert data).1 = .error failure ∧ (t.step request).2 = (t.insert data).2 := by
  cases request with
  | insert other =>
    cases inserts
    exact ⟨map_eq_error.mp failed, rfl⟩
  | containsThenInsert other =>
    cases inserts
    by_cases member : t.classOf data ∈ t.stored
    · simp only [Cuckoo.step, containsThenInsert, contains_eq sound, member, decide_true] at failed
      cases failed
    · simp only [Cuckoo.step, containsThenInsert, contains_eq sound, member, decide_false] at failed ⊢
      exact ⟨map_eq_error.mp (map_eq_error.mp failed), trivial⟩
  | contains other => cases inserts
  | containsThenErase other => cases inserts
  | clear => cases inserts

/-- Without buckets a request changes nothing or clears, and no relocation gives up. -/
theorem step_of_no_buckets [Source σ] (h : t.buckets = 0) (request : Request) :
    ((t.step request).2 = t ∨ (t.step request).2 = t.clear) ∧ Unfailing (t.step request).1 := by
  have stopped : t.check = .error .zeroModulus := if_pos h
  have other (kicks : Nat) : Except.error .zeroModulus ≠ (.error (.full kicks) : Answer) := by simp
  have missing (data : ByteArray) : t.contains data = .error .zeroModulus := by
    rw [contains, stopped]
    rfl
  cases request with
  | insert data =>
    simp only [Cuckoo.step, insert, stopped]
    exact ⟨.inl trivial, other⟩
  | contains data =>
    simp only [Cuckoo.step, missing]
    exact ⟨.inl trivial, other⟩
  | containsThenInsert data =>
    simp only [Cuckoo.step, containsThenInsert, missing]
    exact ⟨.inl trivial, other⟩
  | containsThenErase data =>
    simp only [Cuckoo.step, containsThenErase, stopped]
    exact ⟨.inl rfl, other⟩
  | clear => exact ⟨.inr rfl, fun _ bad => by cases bad⟩

end Steps

theorem run_of_no_buckets [Source σ] {t : Cuckoo σ} (h : t.buckets = 0) (requests : List Request) :
    (serve step t requests).2.buckets = 0 := by
  refine serve_induction (P := fun _ (t : Cuckoo σ) => t.buckets = 0) h (fun _ t request h => ?_) requests
  rcases (step_of_no_buckets h request).1 with kept | cleared
  · rw [kept]
    exact h
  · rw [cleared]
    exact h

theorem run_retains [Source σ] {t : Cuckoo σ} {classOf : ByteArray → Class} (start : Holds classOf t 0)
    (requests : List Request) : Retains classOf (offered requests) (serve step t requests).2 := by
  induction requests using List.reverseRecOn with
  | nil => exact ⟨0, le_rfl, start⟩
  | append_singleton before request ih =>
    rw [serve_append, offered_append]
    exact ih.step request

/-- An insertion fails only where the item's buckets are full. Of the classes that were stored and the
item's own, exactly one is then missing, and the count is what it was. Every fingerprint still lies in one of
the two buckets of an item that was offered, and items of other classes test as before. -/
theorem failed_insertion_loses_one_class [Source σ] (capacity fingerprintSize maxKicks : Nat)
    (hasher : Hasher) (source : σ) (requests : List Request) (request : Request) (data : ByteArray)
    (inserts : offer? request = some data) (kicks : Nat)
    (failed : (step (serve step (empty (bucketsFor capacity fingerprintSize) fingerprintSize capacity
      maxKicks hasher source) requests).2 request).1 = .error (.full kicks)) :
    let start := empty (bucketsFor capacity fingerprintSize) fingerprintSize capacity maxKicks hasher source
    let t := (serve step start requests).2
    let u := (t.step request).2
    t.classOf = start.classOf ∧ u.classOf = start.classOf ∧
    (∀ slot, slot / bucketSize ∈ (start.classOf data).2 →
      ∃ fingerprint, t.slots[slot]? = some (some fingerprint)) ∧
    u.count = t.count ∧
    (∀ slot fingerprint, u.slots[slot]? = some (some fingerprint) →
      ∃ item ∈ offered requests + {data},
        (start.classOf item).1 = fingerprint ∧ slot / bucketSize ∈ (start.classOf item).2) ∧
    ∃ lost ∈ t.stored + {start.classOf data},
      u.stored = (t.stored + {start.classOf data}).erase lost ∧
      ∀ other, start.classOf other ≠ start.classOf data → start.classOf other ≠ lost →
        u.contains other = t.contains other := by
  intro start t u
  rcases bucketsFor_eq capacity fingerprintSize with no_buckets | ⟨bits, buckets⟩
  · exact absurd failed ((step_of_no_buckets (run_of_no_buckets no_buckets requests) request).2 kicks)
  have fresh : Holds start.classOf start 0 := by
    simp only [start, buckets]
    exact empty_holds ..
  obtain ⟨items, some_offered, holds⟩ := run_retains fresh requests
  obtain ⟨refused, after⟩ := step_failed holds.sound inserts failed
  have full := insert_failed holds.sound refused
  have stores := insert_stores holds.sound data
  obtain ⟨left, part, later⟩ := holds.stores stores
  rw [← after] at stores later
  rw [refused] at stores
  rw [holds.classes] at stores full
  cases stores with
  | dropped lost shape stored count =>
    have listed : lost ∈ t.stored + {start.classOf data} := by
      rw [← stored]
      exact Multiset.mem_add.mpr (.inr (Multiset.mem_singleton_self lost))
    have rest : u.stored = (t.stored + {start.classOf data}).erase lost := by
      rw [← stored, add_comm, Multiset.singleton_add, Multiset.erase_cons_head]
    refine ⟨holds.classes, later.classes, full, count, fun slot fingerprint content => ?_, lost, listed, rest,
      fun other apart kept => ?_⟩
    · obtain ⟨item, held, home⟩ := later.home content
      exact ⟨item, Multiset.mem_of_le (part.trans (add_le_add_left some_offered _)) held, home⟩
    · refine contains_congr holds.sound later.sound (later.classes.trans holds.classes.symm) ?_
      rw [holds.classes, rest, Multiset.mem_erase_of_ne kept, Multiset.mem_add, Multiset.mem_singleton]
      exact or_iff_left apart

/-- Words for a coin and for three kicks, all of them at the first slot. -/
private def steady : ChaCha.Stream := ⟨.replicate 8 0, List.replicate 5 0, 0⟩

private def single : Cuckoo ChaCha.Stream := empty (bucketsFor 1 12) 12 1 3 .leadingBytes steady

private def filling : List Request := [1, 2, 3, 4].map fun tag => .insert (Hasher.dataOf 0 tag)

/-- Both buckets of every item are the same one. The fifth item evicts the first, is evicted by it, and evicts
it once more. -/
theorem evicted_copy_is_lost :
    (step (serve step single filling).2 (.insert (Hasher.dataOf 0 5))).1 = .error (.full 3) ∧
      (step (serve step single filling).2 (.insert (Hasher.dataOf 0 5))).2.count = 4 ∧
      (step (serve step single filling).2 (.insert (Hasher.dataOf 0 5))).2.contains (Hasher.dataOf 0 1) =
        .ok false ∧
      (step (serve step single filling).2 (.insert (Hasher.dataOf 0 5))).2.contains (Hasher.dataOf 0 5) =
        .ok true := by
  have failed : (step (serve step single filling).2 (.insert (Hasher.dataOf 0 5))).1 = .error (.full 3) := rfl
  obtain ⟨-, -, -, count, -⟩ :=
    failed_insertion_loses_one_class 1 12 3 .leadingBytes steady filling (.insert (Hasher.dataOf 0 5))
      (Hasher.dataOf 0 5) rfl 3 failed
  exact ⟨failed, count.trans rfl, rfl, rfl⟩

end Synopsis.Presence.Cuckoo
