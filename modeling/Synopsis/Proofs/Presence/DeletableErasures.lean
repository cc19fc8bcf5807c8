import Synopsis.Proofs.Hashing.LeadingBytes
import Synopsis.Proofs.Packed.CellLoops
import Synopsis.Proofs.Presence.DeletableOwnership

/-! Runs of a deletable filter in which only held items are erased: no erasure makes another item fail
its test. -/
namespace Synopsis.Presence.DeletableBloom
open Hashing Packed

def step (f : DeletableBloom) : Request → Answer × DeletableBloom
  | .insert data => settle f ((f.insert data).map fun g => (none, g))
  | .contains data => ((f.contains data).map some, f)
  | .containsThenInsert data =>
    settle f ((f.containsThenInsert data).map fun (member, g) => (some member, g))
  | .containsThenErase data =>
    settle f ((f.containsThenErase data).map fun (member, g) => (some member, g))
  | .clear => (.ok none, f.clear)

/-- The flag of the region is set and no bit, or the bit and no flag. -/
theorem markOrSet_eq_ok {regionSize i : Nat} {s t : Counters × Counters} (run : markOrSet regionSize s i = .ok t) :
    (t.1 = s.1 ∧ s.2.set (i / regionSize) 1 = .ok t.2) ∨ (s.1.set i 1 = .ok t.1 ∧ t.2 = s.2) := by
  obtain ⟨bit, -, run⟩ := bind_eq_ok.mp run
  split at run
  · obtain ⟨_, set, made⟩ := bind_eq_ok.mp run
    cases made
    exact .inl ⟨rfl, set⟩
  · obtain ⟨_, set, made⟩ := bind_eq_ok.mp run
    cases made
    exact .inr ⟨set, rfl⟩

/-- Setting a bit, or marking its region where that is possible, empties no bit and fills no other. -/
theorem markOrSet_grows (regionSize : Nat) : Counters.Grows Prod.fst (markOrSet regionSize) := by
  have set_grows := Counters.set_grows Nat.one_pos
  constructor
  case past =>
    intro s i outside
    rw [markOrSet, Counters.get, if_neg outside]
    rfl
  case size =>
    intro s t i run
    rcases markOrSet_eq_ok run with ⟨same, -⟩ | ⟨set, -⟩
    · rw [same]
    · exact set_grows.size set
  case kept =>
    intro s t i run
    rcases markOrSet_eq_ok run with ⟨same, -⟩ | ⟨set, -⟩
    · rw [same]
    · exact set_grows.kept set
  case only =>
    intro s t i run
    rcases markOrSet_eq_ok run with ⟨same, -⟩ | ⟨set, -⟩
    · rw [same]
      exact Finset.subset_insert ..
    · exact set_grows.only set

/-- A filter that addresses its bits as `start` does and owns them for the held copies. -/
structure Keeps (start f : DeletableBloom) (held : Multiset ByteArray) : Prop where
  hasher : f.hasher = start.hasher
  hashes : f.hashes = start.hashes
  size : f.cells.size = start.cells.size
  regionSize : f.regionSize = start.regionSize
  count : f.count = held.card
  owned : Owned f.regionSize (load start.positions held) f.cells f.collisions

section Step
variable {start f : DeletableBloom} {held : Multiset ByteArray}

theorem positions_lt (h : 0 < f.cells.size) (data : ByteArray) :
    ∀ i ∈ f.positions data, i < f.cells.size :=
  f.hasher.positions_lt data f.hashes h

theorem Keeps.positions (h : Keeps start f held) : f.positions = start.positions := by
  funext data
  simp only [DeletableBloom.positions, DeletableBloom.size, h.hasher, h.hashes, h.size]

theorem contains_eq (inside : 0 < f.cells.size) (data : ByteArray) :
    f.contains data = .ok (decide (∀ i ∈ f.positions data, f.cells.read i ≠ 0)) :=
  Counters.covers_eq (positions_lt inside data)

/-- An insertion under a test is the test and the insertion, also where positions of the item coincide. -/
theorem fusion (f : DeletableBloom) (data : ByteArray) :
    Fusion (f.contains data) (f.insert data) (f.containsThenInsert data) := by
  have places := (Nat.eq_zero_or_pos f.cells.size).imp_right fun pos => positions_lt pos data
  exact (markOrSet_grows f.regionSize).fusion (s := (f.cells, f.collisions)) places fun state =>
    { f with cells := state.1, collisions := state.2, count := f.count + 1 }

theorem Keeps.set_of_mem (h : Keeps start f held) (inside : 0 < f.cells.size) {data : ByteArray}
    (member : data ∈ held) : ∀ i ∈ f.positions data, f.cells.read i ≠ 0 := by
  intro i hit
  have most := count_le_load start.positions member i
  have own := List.count_pos_iff.mpr hit
  rw [h.positions] at own
  have set := h.owned.covered i (positions_lt inside data i hit) (by omega)
  omega

theorem Keeps.insert (h : Keeps start f held) (inside : 0 < f.cells.size) (data : ByteArray) :
    ∃ g, f.insert data = .ok g ∧ Keeps start g (data ::ₘ held) := by
  obtain ⟨⟨cells, collisions⟩, run, size, owned⟩ := mark_owned h.owned (positions_lt inside data)
  rw [h.positions, ← load_cons] at owned
  refine ⟨{ f with cells, collisions, count := f.count + 1 }, ?_, h.hasher, h.hashes,
    size.trans h.size, h.regionSize, ?_, owned⟩
  · simp only [DeletableBloom.insert, run]
    rfl
  · simp only [h.count, Multiset.card_cons]

theorem Keeps.containsThenInsert (h : Keeps start f held) (inside : 0 < f.cells.size)
    (data : ByteArray) :
    ∃ member g, f.containsThenInsert data = .ok (member, g) ∧ Keeps start g (data ::ₘ held) := by
  obtain ⟨g, run, keeps⟩ := h.insert inside data
  exact ⟨_, g, (fusion f data).eq_ok (contains_eq inside data) run, keeps⟩

/-- What an erasure does where the test succeeds, be the item held or not. -/
theorem Keeps.released (h : Keeps start f held) (inside : 0 < f.cells.size) {data : ByteArray}
    (set : ∀ i ∈ f.positions data, f.cells.read i ≠ 0) :
    ∃ left, f.containsThenErase data = .ok (true, { f with cells := left, count := f.count - 1 }) ∧
      Released f.regionSize f.cells f.collisions (f.positions data) left := by
  obtain ⟨left, run, released⟩ := release_released h.owned (positions_lt inside data)
  refine ⟨left, ?_, released⟩
  simp only [DeletableBloom.containsThenErase, Counters.covers_eq (positions_lt inside data),
    decide_eq_true set, run]
  rfl

theorem Keeps.erase (h : Keeps start f held) (inside : 0 < f.cells.size) {data : ByteArray}
    (member : data ∈ held) :
    ∃ g, f.containsThenErase data = .ok (true, g) ∧ Keeps start g (held.erase data) := by
  obtain ⟨left, run, released⟩ := h.released inside (h.set_of_mem inside member)
  have owned := released.owned h.owned fun i _ => by
    rw [h.positions]
    exact count_le_load start.positions member i
  rw [h.positions, ← load_erase _ member] at owned
  refine ⟨_, run, h.hasher, h.hashes, released.1.trans h.size, h.regionSize, ?_, owned⟩
  rw [Multiset.card_erase_of_mem member, ← h.count]
  rfl

theorem Keeps.clear (h : Keeps start f held) : Keeps start f.clear 0 := by
  have zero (c : Counters) (i : Nat) : c.clear.read i = 0 := Counters.read_zeros ..
  exact ⟨h.hasher, h.hashes, h.size, h.regionSize, rfl, h.owned.bit, h.owned.flag, h.owned.regions,
    fun _ _ hit => absurd rfl hit, fun i _ _ => zero f.cells i⟩

/-- No step fails, and the copies held are those that the answers tell of. -/
theorem Keeps.step (h : Keeps start f held) (pos : 0 < start.cells.size) (request : Request)
    (sparing : ∀ data, (request, (f.step request).1) =
      (.containsThenErase data, .ok (some true)) → data ∈ held) :
    (∃ answer, (f.step request).1 = .ok answer) ∧
      Keeps start (f.step request).2 (retain true held (request, (f.step request).1)) := by
  have inside : 0 < f.cells.size := h.size ▸ pos
  cases request with
  | insert data =>
    obtain ⟨g, run, keeps⟩ := h.insert inside data
    simp only [DeletableBloom.step, run]
    exact ⟨⟨_, rfl⟩, keeps⟩
  | contains data =>
    simp only [DeletableBloom.step, contains_eq inside]
    exact ⟨⟨_, rfl⟩, h⟩
  | containsThenInsert data =>
    obtain ⟨member, g, run, keeps⟩ := h.containsThenInsert inside data
    simp only [DeletableBloom.step, run]
    refine ⟨⟨_, rfl⟩, ?_⟩
    simpa [settle, Except.map, retain] using keeps
  | containsThenErase data =>
    by_cases set : ∀ i ∈ f.positions data, f.cells.read i ≠ 0
    · obtain ⟨left, run, -⟩ := h.released inside set
      have member : data ∈ held := sparing data (by simp only [DeletableBloom.step, run]; rfl)
      obtain ⟨g, run, keeps⟩ := h.erase inside member
      simp only [DeletableBloom.step, run]
      exact ⟨⟨_, rfl⟩, keeps⟩
    · have missing : f.containsThenErase data = .ok (false, f) := by
        simp only [DeletableBloom.containsThenErase, Counters.covers_eq (positions_lt inside data),
          decide_eq_false set]
        rfl
      simp only [DeletableBloom.step, missing]
      exact ⟨⟨_, rfl⟩, h⟩
  | clear => exact ⟨⟨_, rfl⟩, h.clear⟩

end Step

theorem empty_keeps (m regions k : Nat) (hasher : Hasher) :
    Keeps (empty (.split (m + regions) regions) regions k hasher)
      (empty (.split (m + regions) regions) regions k hasher) 0 := by
  refine ⟨rfl, rfl, rfl, rfl, rfl, rfl, rfl, fun i hi => ?_, fun _ _ hit => absurd rfl hit,
    fun i _ _ => Counters.read_zeros ..⟩
  exact Nat.lt_succ_of_le (Nat.div_le_div_right (Nat.le_sub_one_of_lt hi))

theorem run_keeps {start : DeletableBloom} (pos : 0 < start.cells.size) (h : Keeps start start 0)
    (requests : List Request) (sparing : Sparing true (serve step start requests).1) :
    (∀ event ∈ (serve step start requests).1, ∃ answer, event.2 = .ok answer) ∧
      Keeps start (serve step start requests).2 (live true (serve step start requests).1) := by
  revert sparing
  refine serve_induction (P := fun log f => Sparing true log →
    (∀ event ∈ log, ∃ answer, event.2 = .ok answer) ∧ Keeps start f (live true log)) ?_ ?_ requests
  · exact fun _ => ⟨List.forall_mem_nil _, h⟩
  · intro log f request ih sparing
    obtain ⟨answers, keeps⟩ := ih sparing.before
    obtain ⟨answered, next⟩ := keeps.step pos request fun data same => (same ▸ sparing).last
    rw [live_concat]
    refine ⟨fun event member => ?_, next⟩
    rcases List.mem_append.mp member with earlier | last
    · exact answers event earlier
    · exact List.mem_singleton.mp last ▸ answered

/-- While only held items are erased, every held item is contained and can be erased, the count is the
number of held copies, and a set bit outside the collided regions is hit by one position of one copy. -/
theorem erasures_spare_held_items (m regions k : Nat) (hasher : Hasher) (requests : List Request)
    (pos : 0 < m)
    (sparing : Sparing true
      (serve step (empty (.split (m + regions) regions) regions k hasher) requests).1) :
    let start := empty (.split (m + regions) regions) regions k hasher
    let log := (serve step start requests).1
    let f := (serve step start requests).2
    let held := live true log
    (∀ event ∈ log, ∃ answer, event.2 = .ok answer) ∧
    (∀ data ∈ held, f.contains data = .ok true ∧ ∃ g, f.containsThenErase data = .ok (true, g)) ∧
    f.count = held.card ∧
    ∀ i < m, f.cells.read i ≠ 0 → f.collisions.read (i / f.regionSize) = 0 →
      load f.positions held i = 1 := by
  intro start log f held
  have size : start.cells.size = m := Nat.add_sub_cancel m regions
  obtain ⟨answers, keeps⟩ := run_keeps (size.symm ▸ pos : 0 < start.cells.size)
    (empty_keeps m regions k hasher) requests sparing
  have inside : 0 < f.cells.size := by rw [keeps.size, size]; exact pos
  refine ⟨answers, fun data member => ⟨?_, ?_⟩, keeps.count, fun i hi set free => ?_⟩
  · rw [contains_eq inside, decide_eq_true (keeps.set_of_mem inside member)]
  · obtain ⟨g, run, -⟩ := keeps.erase inside member
    exact ⟨g, run⟩
  · have hi : i < f.cells.size := by rw [keeps.size, size]; exact hi
    have alone := keeps.owned.counted i hi free
    have bound := f.cells.read_le_max i
    rw [keeps.owned.max_cells] at bound
    rw [keeps.positions]
    exact alone.symm.trans (Nat.le_antisymm bound (Nat.pos_of_ne_zero set))

/-- Six bits in three regions, two hash functions. -/
private def sixBits : DeletableBloom := empty (.split (6 + 3) 3) 3 2 .leadingBytes

/-- The first two items share bit one, which costs the first region. -/
private def sharing : List Request :=
  [.insert (Hasher.dataOf 0 1), .insert (Hasher.dataOf 1 1), .insert (Hasher.dataOf 4 1),
    .containsThenErase (Hasher.dataOf 0 1), .containsThenErase (Hasher.dataOf 4 1)]

theorem shared_bit_survives :
    Sparing true (serve step sixBits sharing).1 ∧
      (serve step sixBits sharing).2.cells.toList = [1, 1, 1, 0, 0, 0] ∧
      (serve step sixBits sharing).2.contains (Hasher.dataOf 1 1) = .ok true ∧
      (serve step sixBits sharing).2.count = 1 := by
  have log : (serve step sixBits sharing).1 =
      [(.insert (Hasher.dataOf 0 1), .ok none), (.insert (Hasher.dataOf 1 1), .ok none),
        (.insert (Hasher.dataOf 4 1), .ok none),
        (.containsThenErase (Hasher.dataOf 0 1), .ok (some true)),
        (.containsThenErase (Hasher.dataOf 4 1), .ok (some true))] := rfl
  have sparing : Sparing true (serve step sixBits sharing).1 := by
    rw [log]
    have inserted (a b c : ByteArray) : Sparing true
        [(.insert a, .ok none), (.insert b, .ok none), (.insert c, .ok none)] :=
      (((Sparing.nil true).concat (by simp)).concat (by simp)).concat (by simp)
    refine ((inserted _ _ _).concat fun data same => ?_).concat fun data same => ?_
    · cases same
      decide
    · cases same
      decide
  have held : live true (serve step sixBits sharing).1 = {Hasher.dataOf 1 1} := by
    rw [log]
    decide
  have spared := erasures_spare_held_items 6 3 2 .leadingBytes sharing (by decide) sparing
  refine ⟨sparing, rfl, (spared.2.1 _ ?_).1, ?_⟩
  · change _ ∈ live true (serve step sixBits sharing).1
    rw [held]
    exact Multiset.mem_singleton_self _
  · refine spared.2.2.1.trans ?_
    change (live true (serve step sixBits sharing).1).card = 1
    rw [held]
    rfl

end Synopsis.Presence.DeletableBloom
