import Synopsis.Proofs.Presence.CuckooAccounts

/-! Whether a cuckoo table can hold as many fingerprints as it was sized for. The number of buckets comes from a
division that may round down to nothing, and a bucket is chosen by a word of 32 bits. So there is room for capacities
of one bucket, and for those that are no less than the bytes of a fingerprint and that such words can address. -/
namespace Synopsis.Numeric

theorem le_powerOfTwoFrom (n : Nat) : n ≤ powerOfTwoFrom n := by
  rw [powerOfTwoFrom]
  split
  next small => exact small
  next =>
    have above : n - 1 < 2 ^ ((n - 1).log2 + 1) := Nat.lt_log2_self
    rw [Nat.one_shiftLeft]
    omega

theorem powerOfTwoFrom_le {n bits : Nat} (bound : n ≤ 2 ^ bits) : powerOfTwoFrom n ≤ 2 ^ bits := by
  rw [powerOfTwoFrom]
  split
  next => exact Nat.one_le_two_pow
  next large =>
    have log : (n - 1).log2 < bits := (Nat.log2_lt (by omega)).mpr (by omega)
    rw [Nat.one_shiftLeft]
    exact Nat.pow_le_pow_right two_pos log

end Synopsis.Numeric

namespace Synopsis.Presence.Cuckoo
open Numeric Hashing Randomness

section Sizes
variable {capacity size : Nat}

/-- Where nothing is lost in a carry. -/
theorem bucketsFor_of_small (small : capacity / size * 8 ≤ 2 ^ 63) :
    bucketsFor capacity size = powerOfTwoFrom (max 1 (capacity / size * 8)) := by
  have word : capacity / size * 8 < UInt64.size := small.trans_lt (by decide)
  have top : powerOfTwoFrom (max 1 (capacity / size * 8)) < UInt64.size :=
    (powerOfTwoFrom_le (max_le (by decide) small)).trans_lt (by decide)
  rw [bucketsFor, Nat.mod_eq_of_lt word, Nat.mod_eq_of_lt top]

/-- Of capacities that words can address, nothing is. -/
theorem carries_nothing (reach : capacity ≤ bucketSize * UInt32.size) : capacity / size * 8 ≤ 2 ^ 63 := by
  have quotient := Nat.div_le_self capacity size
  simp only [bucketSize, UInt32.size] at reach
  omega

/-- With fewer items than bytes in a fingerprint there is only one bucket. -/
theorem bucketsFor_of_lt (few : capacity < size) : bucketsFor capacity size = 1 := by
  rw [bucketsFor, Nat.div_eq_of_lt few]
  rfl

/-- Eight buckets for each fingerprint length of items are more than enough, if there is such a length at all. -/
theorem capacity_le_iff (positive : 1 ≤ size) (short : size ≤ 12) (small : capacity / size * 8 ≤ 2 ^ 63) :
    capacity ≤ bucketSize * bucketsFor capacity size ↔ capacity ≤ bucketSize ∨ size ≤ capacity := by
  simp only [bucketSize]
  constructor
  · intro fits
    by_contra neither
    rw [bucketsFor_of_lt (by omega)] at fits
    omega
  · have enough : max 1 (capacity / size * 8) ≤ bucketsFor capacity size :=
      (bucketsFor_of_small small).symm ▸ le_powerOfTwoFrom _
    rintro (four | longer)
    · omega
    · have one : 1 ≤ capacity / size := Nat.div_pos longer positive
      have next : capacity < size * (capacity / size + 1) := Nat.lt_mul_div_succ capacity positive
      have wide : size * (capacity / size + 1) ≤ 12 * (capacity / size + 1) := Nat.mul_le_mul_right _ short
      omega

end Sizes

variable {σ : Type}

/-- Only buckets with numbers of 32 bits are in use. -/
def Reached (t : Cuckoo σ) : Prop :=
  ∀ (slot : Nat) (fingerprint : Fingerprint), t.slots[slot]? = some (some fingerprint) →
    slot / bucketSize < UInt32.size

section Reach
variable {t u : Cuckoo σ} {data : ByteArray} {c : Class}

theorem bucket_lt_of_classOf : ∀ bucket ∈ (t.classOf data).2, bucket < UInt32.size := by
  have low (i : UInt32) : t.bucketOf i < UInt32.size := (Nat.mod_le ..).trans_lt i.toNat_lt
  intro bucket own
  rcases Sym2.mem_iff.mp own with rfl | rfl
  · exact low _
  · exact low _

/-- The other bucket of a fingerprint differs by a word. -/
theorem Reached.bucket_lt (h : Reached t) (held : c ∈ t.stored) : ∀ bucket ∈ c.2, bucket < UInt32.size := by
  obtain ⟨slot, fingerprint, content, rfl⟩ := mem_stored.mp held
  have low := h slot fingerprint content
  intro bucket own
  rcases Sym2.mem_iff.mp own with rfl | rfl
  · exact low
  · exact (Nat.mod_le ..).trans_lt (Nat.xor_lt_two_pow low (t.hasher.word fingerprint).toNat_lt)

theorem Reached.next (h : Reached t) (held : u.stored ≤ t.stored + {t.classOf data}) : Reached u := by
  intro slot fingerprint content
  have member := Multiset.mem_of_le held (mem_stored.mpr ⟨slot, fingerprint, content, rfl⟩)
  have own : slot / bucketSize ∈ (u.bucketClass (slot / bucketSize) fingerprint).2 := Sym2.mem_mk_left ..
  rcases Multiset.mem_add.mp member with before | new
  · exact h.bucket_lt before _ own
  · exact bucket_lt_of_classOf _ (Multiset.mem_singleton.mp new ▸ own)

theorem reached_of_replicate {n : Nat} (slots : t.slots = Array.replicate n none) : Reached t := by
  intro slot fingerprint content
  rw [slots, Array.getElem?_replicate] at content
  split at content <;> cases content

theorem Reached.step [Source σ] (h : Reached t) (whole : t.buckets = 0 ∨ Sound t) (request : Request) :
    Reached (t.step request).2 := by
  rcases step_cases whole request with same | cleared | ⟨-, -, data, held⟩
  · exact same.symm ▸ h
  · exact cleared.symm ▸ reached_of_replicate rfl
  · exact h.next held

/-- The slots after those of the buckets that can be addressed stay free. -/
theorem Reached.used_le (h : Reached t) : t.slots.countP Option.isSome ≤ bucketSize * UInt32.size := by
  have rest : (t.slots.toList.drop (bucketSize * UInt32.size)).countP Option.isSome = 0 := by
    refine List.countP_eq_zero.mpr fun content listed used => ?_
    obtain ⟨fingerprint, rfl⟩ := Option.isSome_iff_exists.mp used
    obtain ⟨place, there⟩ := List.mem_iff_getElem?.mp listed
    rw [List.getElem?_drop, Array.getElem?_toList] at there
    have low := h _ fingerprint there
    rw [Nat.div_lt_iff_lt_mul (by decide), Nat.mul_comm] at low
    omega
  rw [← Array.countP_toList, ← List.take_append_drop (bucketSize * UInt32.size) t.slots.toList, List.countP_append,
    rest]
  exact List.countP_le_length.trans (List.length_take_le ..)

theorem run_reached [Source σ] (c : Config) {size : Nat} (short : size ≤ 12) (hasher : Hasher) (source : σ)
    (actions : List (Action Request)) : Reached ((lifecycle σ c).run (c.table size hasher source) actions) := by
  induction actions using List.reverseRecOn with
  | nil => exact reached_of_replicate rfl
  | append_singleton before action ih =>
    have accounts := (run_accounted c short hasher source before).1
    rw [Lifecycle.run, List.foldl_append]
    cases action with
    | operation request => exact ih.step accounts.whole request
    | withHasher other => exact ih

end Reach

/-- The first `n` slots are in use and the others free. -/
structure FilledTo (start : Cuckoo σ) (n : Nat) (t : Cuckoo σ) : Prop where
  shape : SameShape start t
  count : t.count = n
  free (slot : Nat) : t.slots[slot]? = some none ↔ n ≤ slot ∧ slot < t.slots.size

section Filling
variable {start t : Cuckoo σ} {n : Nat}

theorem find?_of_first {i : UInt32} {slot : Nat} (home : slot / bucketSize = t.bucketOf i)
    (free : t.slots[slot]? = some none) (first : ∀ place < slot, t.slots[place]? ≠ some none) :
    t.find? i none = some slot := by
  have place : bucketSize * t.bucketOf i + slot % bucketSize = slot := home ▸ Nat.div_add_mod ..
  have offset : slot % bucketSize < bucketSize := Nat.mod_lt _ (by decide)
  rw [find?, slotsOf, List.find?_map, Option.map_eq_some_iff]
  refine ⟨_, List.find?_range_eq_some.mpr ⟨?_, List.mem_range.mpr offset, fun earlier before => ?_⟩, place⟩
  · rw [Function.comp_apply, place, free, beq_self_eq_true]
  · have used := first (bucketSize * t.bucketOf i + earlier) (by omega)
    simpa using used

/-- The next free slot is the first one of the bucket that it lies in. -/
theorem FilledTo.next [Source σ] (h : FilledTo start n t) (leading : start.hasher = .leadingBytes)
    (whole : start.slots.size = bucketSize * start.buckets) (room : n < start.slots.size)
    (reach : n < bucketSize * UInt32.size) :
    FilledTo start (n + 1) (t.insert (Hasher.wordOf (n / bucketSize))).2 := by
  have low : n / bucketSize < UInt32.size := Nat.div_lt_of_lt_mul reach
  have bucket : n / bucketSize < t.buckets := by
    rw [h.shape.buckets]
    exact Nat.div_lt_of_lt_mul (whole ▸ room)
  have home : n / bucketSize = t.bucketOf (t.key (Hasher.wordOf (n / bucketSize))).first := by
    have word : (t.key (Hasher.wordOf (n / bucketSize))).first.toNat = n / bucketSize := by
      rw [key, h.shape.hasher, leading]
      exact Hasher.word_wordOf low
    rw [bucketOf, word, Nat.mod_eq_of_lt bucket]
  have inside : n < t.slots.size := h.shape.size.symm ▸ room
  have found : t.find? (t.key (Hasher.wordOf (n / bucketSize))).first none = some n :=
    find?_of_first home ((h.free n).mpr ⟨le_rfl, inside⟩) fun place before free =>
      absurd ((h.free place).mp free).1 (Nat.not_le.mpr before)
  have ready : t.check = .ok () := if_neg (Nat.ne_zero_of_lt bucket)
  have stored : (t.insert (Hasher.wordOf (n / bucketSize))).2 =
      t.store n (t.key (Hasher.wordOf (n / bucketSize))).fingerprint := by
    simp only [insert, ready, insertKey, found]
  rw [stored]
  refine ⟨h.shape.trans (.store ..), congrArg (· + 1) h.count, fun slot => ?_⟩
  simp only [store, Array.size_setIfInBounds, Array.getElem?_setIfInBounds]
  by_cases here : n = slot
  · subst here
    simp [inside]
  · rw [if_neg here, h.free]
    omega

/-- Four copies of each word, one word after the other. -/
def fillers (n : Nat) : List (Action Request) :=
  (List.range n).map fun slot => .operation (.insert (Hasher.wordOf (slot / bucketSize)))

theorem run_filledTo [Source σ] {c : Config} {size : Nat} (source : σ)
    (room : n ≤ bucketSize * bucketsFor c.capacity size) (reach : n ≤ bucketSize * UInt32.size) :
    let start := c.table size .leadingBytes source
    FilledTo start n ((lifecycle σ c).run start (fillers n)) := by
  intro start
  have whole : start.slots.size = bucketSize * start.buckets := Array.size_replicate
  induction n with
  | zero =>
    refine ⟨.refl start, rfl, fun slot => ?_⟩
    have blank : start.slots = Array.replicate (bucketSize * start.buckets) none := rfl
    change start.slots[slot]? = some none ↔ 0 ≤ slot ∧ slot < start.slots.size
    rw [whole, blank, Array.getElem?_replicate]
    simp
  | succ n ih =>
    have next := (ih (Nat.le_of_lt room) (Nat.le_of_lt reach)).next rfl whole (whole ▸ room) reach
    rw [fillers, List.range_succ, List.map_append, Lifecycle.run, List.foldl_append]
    exact next

end Filling

/-- Accepted fingerprints have from one to twelve bytes. -/
theorem ofConfigWith_eq_ok {c : Config} {hasher : Hasher} {source : σ} {start : Cuckoo σ}
    (made : ofConfigWith { c with hasher } source = .ok start) :
    ∃ size, 1 ≤ size ∧ size ≤ 12 ∧ start = c.table size hasher source := by
  obtain ⟨_, -, made⟩ := bind_eq_ok.mp made
  have positive : 1 ≤ fingerprintSizeFor c.falsePositiveRate := le_min (le_max_left ..) (by decide)
  exact ⟨_, positive, Nat.min_le_right .., (Except.ok.inj made).symm⟩

/-- Where the number of buckets fits in a word, a table has slots for the items that it was sized for if and only if
they fill one bucket at most or are no fewer than the bytes of a fingerprint. For other capacities the division leaves
one bucket. Where there are such slots, some hasher and some items fill that many, unless they are more than the words
that choose a bucket can address. -/
theorem holds_capacity_iff [Source σ] (c : Config) {size : Nat} (positive : 1 ≤ size) (short : size ≤ 12)
    (source : σ) :
    (∀ hasher start, ofConfigWith { c with hasher } source = .ok start →
      ∃ size, 1 ≤ size ∧ size ≤ 12 ∧ start = c.table size hasher source) ∧
    (∀ hasher, (c.table size hasher source).slots.size = bucketSize * bucketsFor c.capacity size) ∧
    (c.capacity / size * 8 ≤ 2 ^ 63 →
      bucketsFor c.capacity size = powerOfTwoFrom (max 1 (c.capacity / size * 8)) ∧
      (∃ bits, bucketsFor c.capacity size = 2 ^ bits) ∧
      (c.capacity ≤ bucketSize * bucketsFor c.capacity size ↔ c.capacity ≤ bucketSize ∨ size ≤ c.capacity)) ∧
    ((∃ hasher actions, ((lifecycle σ c).run (c.table size hasher source) actions).count = c.capacity) ↔
      (c.capacity ≤ bucketSize ∨ size ≤ c.capacity) ∧ c.capacity ≤ bucketSize * UInt32.size) := by
  refine ⟨fun hasher start => ofConfigWith_eq_ok, fun hasher => Array.size_replicate, fun small => ?_, ?_, ?_⟩
  · have same := bucketsFor_of_small small
    refine ⟨same, (bucketsFor_eq ..).resolve_left fun none => ?_, capacity_le_iff positive short small⟩
    have least := (le_max_left ..).trans (le_powerOfTwoFrom (max 1 (c.capacity / size * 8)))
    omega
  · rintro ⟨hasher, actions, full⟩
    obtain ⟨accounts, layout⟩ := run_accounted c short hasher source actions
    have used := full.symm.trans accounts.count
    have reach := used.trans_le (run_reached c short hasher source actions).used_le
    have fits : c.capacity ≤ bucketSize * bucketsFor c.capacity size :=
      used.trans_le (Array.countP_le_size.trans_eq (accounts.size.trans (congrArg _ layout.buckets)))
    exact ⟨(capacity_le_iff positive short (carries_nothing reach)).mp fits, reach⟩
  · rintro ⟨apt, reach⟩
    have room := (capacity_le_iff positive short (carries_nothing reach)).mpr apt
    exact ⟨.leadingBytes, fillers c.capacity, (run_filledTo source room reach).count⟩

/-- Six fingerprints of six bytes can be held, and five cannot. -/
theorem six_are_held_but_not_five :
    let source := ChaCha.Stream.ofSeed 0
    (¬∃ hasher actions,
      ((lifecycle _ { capacity := 5 }).run (Config.table { capacity := 5 } 6 hasher source) actions).count = 5) ∧
    bucketsFor 6 6 = 2 ^ 3 ∧ 6 ≤ bucketSize * bucketsFor 6 6 ∧
    ∃ hasher actions,
      ((lifecycle _ { capacity := 6 }).run (Config.table { capacity := 6 } 6 hasher source) actions).count = 6 := by
  intro source
  obtain ⟨-, -, -, five⟩ := holds_capacity_iff { capacity := 5 } (by decide : 1 ≤ 6) (by decide) source
  obtain ⟨-, -, buckets, six⟩ := holds_capacity_iff { capacity := 6 } (by decide : 1 ≤ 6) (by decide) source
  exact ⟨five.not.mpr (by decide), rfl, (buckets (by decide)).2.2.mpr (by decide), six.mpr (by decide)⟩

private def steadySource : ChaCha.Stream := ⟨.replicate 8 0, List.replicate 10 0, 0⟩

/-- Sized for five items, with three kicks. -/
private def fiveItems : Config := { capacity := 5, maxKicks := 3, hasher := .leadingBytes }

theorem fifth_of_five_items_is_refused :
    let start := fiveItems.table 6 .leadingBytes steadySource
    let t := (lifecycle _ fiveItems).run start (fillers 4)
    bucketsFor 5 6 = 1 ∧ start.slots.size = 4 ∧ start.slots.size < fiveItems.capacity ∧
    t.count = 4 ∧ (t.insert (Hasher.wordOf 1)).1 = .error (.full 3) ∧
    (t.insert (Hasher.wordOf 1)).2.count = 4 := by
  exact ⟨rfl, rfl, by decide, rfl, rfl, rfl⟩

end Synopsis.Presence.Cuckoo
