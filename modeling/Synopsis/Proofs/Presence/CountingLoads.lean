import Synopsis.Presence.CountingBloom
import Synopsis.Proofs.Hashing.LeadingBytes
import Synopsis.Proofs.Packed.CellLoops
import Synopsis.Proofs.Presence.Requests

/-! What the counters of a counting filter say. A counter is the number of hash positions of the held
copies that hit it, for as long as this number fits; what other counters have lost does not matter to it. -/
namespace Synopsis.Presence.CountingBloom
open Hashing Packed

/-- Counters of the same shape that hold the given values. -/
structure Swept (cells : Counters) (value : Nat → Nat) (after : Counters) : Prop where
  size : after.size = cells.size
  width : after.width = cells.width
  read : ∀ j < cells.size, after.read j = value j

section Sweeps
variable {cells : Counters} {value : Nat → Nat} {positions : List Nat}

theorem Swept.max {after : Counters} (h : Swept cells value after) : after.max = cells.max := by
  rw [Counters.max, Counters.max, h.width]

theorem Swept.adjust {after : Counters} (h : Swept cells value after) {i : Nat} (hi : i < cells.size)
    (amount : Int) :
    ∃ next, after.adjust i amount = .ok next ∧
      Swept cells (fun j => if i = j then min (value j + amount).toNat cells.max else value j) next := by
  have inside : i < after.size := h.size.symm ▸ hi
  refine ⟨_, Counters.adjust_of_lt inside amount, h.size, h.width, fun j hj => ?_⟩
  rw [Counters.read_write inside (min_le_right ..), h.max]
  split
  next same => rw [← same, h.read i hi]
  next => exact h.read j hj

/-- Counters that have counted the given positions, stopping at the maximum. -/
abbrev Raised (cells : Counters) (done : List Nat) : Counters → Prop :=
  Swept cells fun j => min (cells.read j + done.count j) cells.max

theorem Raised.nil (cells : Counters) : Raised cells [] cells := by
  refine ⟨rfl, rfl, fun j _ => ?_⟩
  rw [List.count_nil, Nat.add_zero, min_eq_left (cells.read_le_max j)]

theorem Raised.step {done : List Nat} {after : Counters} (h : Raised cells done after) {i : Nat}
    (hi : i < cells.size) :
    ∃ next, after.adjust i 1 = .ok next ∧ Raised cells (done ++ [i]) next := by
  obtain ⟨next, run, more⟩ := Swept.adjust h hi 1
  refine ⟨next, run, more.size, more.width, fun j hj => ?_⟩
  rw [more.read j hj, List.count_append, List.count_singleton]
  by_cases same : i = j
  · simp only [same, if_true, beq_self_eq_true]
    omega
  · simp [same]

theorem raise_raised (inside : ∀ i ∈ positions, i < cells.size) :
    ∃ after, positions.foldlM (fun cells i => cells.adjust i 1) cells = .ok after ∧
      Raised cells positions after :=
  foldlM_keeps (P := Raised cells) (.nil cells) fun _ i _ member raised => raised.step (inside i member)

/-- Counters from which the given positions have been taken back. -/
abbrev Lowered (cells : Counters) (done : List Nat) : Counters → Prop :=
  Swept cells fun j => cells.read j - done.count j

theorem Lowered.nil (cells : Counters) : Lowered cells [] cells := ⟨rfl, rfl, fun _ _ => rfl⟩

theorem Lowered.step {done : List Nat} {after : Counters} (h : Lowered cells done after) {i : Nat}
    (hi : i < cells.size) :
    ∃ next, after.adjust i (-1) = .ok next ∧ Lowered cells (done ++ [i]) next := by
  obtain ⟨next, run, more⟩ := Swept.adjust h hi (-1)
  refine ⟨next, run, more.size, more.width, fun j hj => ?_⟩
  have bound := cells.read_le_max j
  rw [more.read j hj, List.count_append, List.count_singleton]
  by_cases same : i = j
  · simp only [same, if_true, beq_self_eq_true]
    omega
  · simp [same]

theorem lower_lowered (inside : ∀ i ∈ positions, i < cells.size) :
    ∃ after, positions.foldlM (fun cells i => cells.adjust i (-1)) cells = .ok after ∧
      Lowered cells positions after :=
  foldlM_keeps (P := Lowered cells) (.nil cells) fun _ i _ member lowered => lowered.step (inside i member)

end Sweeps

def operations : Operations CountingBloom :=
  ⟨insert, contains, containsThenInsert, containsThenErase, clear⟩

/-- All that serving a request can do to a filter. -/
inductive Effect (f : CountingBloom) : Event → CountingBloom → Prop
  | stored {event : Event} {data : ByteArray} {cells : Counters} (going : event.1 ≠ .clear)
      (retained : ∀ held, retain true held event = data ::ₘ held)
      (raised : Raised f.cells (f.positions data) cells) :
      Effect f event { f with cells, count := f.count + 1 }
  | erased {data : ByteArray} {cells : Counters} (lowered : Lowered f.cells (f.positions data) cells) :
      Effect f (.containsThenErase data, .ok (some true)) { f with cells, count := f.count - 1 }
  | kept {event : Event} (going : event.1 ≠ .clear) (retained : ∀ held, retain true held event = held) :
      Effect f event f
  | cleared : Effect f (.clear, .ok none) f.clear

section Steps
variable {f : CountingBloom}

theorem positions_lt (h : 0 < f.cells.size) (data : ByteArray) :
    ∀ i ∈ f.positions data, i < f.cells.size :=
  f.hasher.positions_lt data f.hashes h

theorem contains_eq (inside : 0 < f.cells.size) (data : ByteArray) :
    f.contains data = .ok (decide (∀ i ∈ f.positions data, f.cells.read i ≠ 0)) :=
  Counters.covers_eq (positions_lt inside data)

theorem insert_eq (inside : 0 < f.cells.size) (data : ByteArray) :
    ∃ cells, f.insert data = .ok { f with cells, count := f.count + 1 } ∧
      Raised f.cells (f.positions data) cells := by
  obtain ⟨cells, run, raised⟩ := raise_raised (positions_lt inside data)
  refine ⟨cells, ?_, raised⟩
  simp only [insert, run]
  rfl

theorem fused (f : CountingBloom) : operations.Fused f := by
  intro data
  have places := (Nat.eq_zero_or_pos f.cells.size).imp_right fun pos => positions_lt pos data
  exact Counters.count_grows.fusion places fun cells => { f with cells, count := f.count + 1 }

/-- An erasure succeeds exactly where the test does. -/
theorem containsThenErase_of_mem (inside : 0 < f.cells.size) {data : ByteArray}
    (member : ∀ i ∈ f.positions data, f.cells.read i ≠ 0) :
    ∃ cells, f.containsThenErase data = .ok (true, { f with cells, count := f.count - 1 }) ∧
      Lowered f.cells (f.positions data) cells := by
  obtain ⟨cells, run, lowered⟩ := lower_lowered (positions_lt inside data)
  refine ⟨cells, ?_, lowered⟩
  simp only [containsThenErase, Counters.covers_eq (positions_lt inside data), decide_eq_true member, run]
  rfl

theorem containsThenErase_of_notMem (inside : 0 < f.cells.size) {data : ByteArray}
    (missing : ¬ ∀ i ∈ f.positions data, f.cells.read i ≠ 0) :
    f.containsThenErase data = .ok (false, f) := by
  simp only [containsThenErase, Counters.covers_eq (positions_lt inside data), decide_eq_false missing]
  rfl

theorem step_effect (inside : 0 < f.cells.size) (request : Request) :
    (∃ answer, (operations.step f request).1 = .ok answer) ∧
      Effect f (request, (operations.step f request).1) (operations.step f request).2 := by
  cases request with
  | insert data =>
    obtain ⟨cells, run, raised⟩ := insert_eq inside data
    simp only [Operations.step, operations, run]
    exact ⟨⟨_, rfl⟩, .stored (by simp) (fun _ => rfl) raised⟩
  | contains data =>
    simp only [Operations.step, operations, contains_eq inside]
    exact ⟨⟨_, rfl⟩, .kept (by simp) fun _ => rfl⟩
  | containsThenInsert data =>
    obtain ⟨cells, run, raised⟩ := insert_eq inside data
    have both := (fused f data).eq_ok (contains_eq inside data) run
    simp only [Operations.step, both]
    exact ⟨⟨_, rfl⟩, .stored (by simp) (fun _ => by simp [retain, settle, Except.map]) raised⟩
  | containsThenErase data =>
    by_cases member : ∀ i ∈ f.positions data, f.cells.read i ≠ 0
    · obtain ⟨cells, run, lowered⟩ := containsThenErase_of_mem inside member
      simp only [Operations.step, operations, run]
      exact ⟨⟨_, rfl⟩, .erased lowered⟩
    · simp only [Operations.step, operations, containsThenErase_of_notMem inside member]
      exact ⟨⟨_, rfl⟩, .kept (by simp) fun _ => rfl⟩
  | clear => exact ⟨⟨_, rfl⟩, .cleared⟩

end Steps

/-- The load of a cell has not been above the bound at any moment of the log. -/
def Within (bound : Nat) (positions : ByteArray → List Nat) (log : List Event) (cell : Nat) : Prop :=
  ∀ before, before <+: log → load positions (live true before) cell ≤ bound

/-- A filter that addresses its counters as `start` does. -/
structure Shaped (start f : CountingBloom) : Prop where
  hasher : f.hasher = start.hasher
  hashes : f.hashes = start.hashes
  size : f.cells.size = start.cells.size
  width : f.cells.width = start.cells.width

/-- The filter counts the held copies, and counters are exact where the load has always fitted. -/
structure Tracks (start : CountingBloom) (log : List Event) (f : CountingBloom) : Prop extends
    Shaped start f where
  count : f.count = (live true log).card
  exact : ∀ cell < start.cells.size, Within start.cells.max start.positions log cell →
    f.cells.read cell = load start.positions (live true log) cell

section Runs
variable {start f g : CountingBloom} {log : List Event} {event : Event}

theorem Within.before {bound : Nat} {positions : ByteArray → List Nat} {cell : Nat}
    (h : Within bound positions (log ++ [event]) cell) : Within bound positions log cell :=
  fun before short => h before (short.trans (List.prefix_append ..))

theorem Within.now {bound : Nat} {positions : ByteArray → List Nat} {cell : Nat}
    (h : Within bound positions log cell) : load positions (live true log) cell ≤ bound :=
  h log List.prefix_rfl

theorem Shaped.positions (h : Shaped start f) : f.positions = start.positions := by
  funext data
  simp only [CountingBloom.positions, CountingBloom.size, h.hasher, h.hashes, h.size]

theorem Shaped.max (h : Shaped start f) : f.cells.max = start.cells.max := by
  rw [Counters.max, Counters.max, h.width]

theorem Shaped.next (h : Shaped start f) (effect : Effect f event g) : Shaped start g := by
  cases effect with
  | stored _ _ raised => exact ⟨h.hasher, h.hashes, raised.size.trans h.size, raised.width.trans h.width⟩
  | erased lowered => exact ⟨h.hasher, h.hashes, lowered.size.trans h.size, lowered.width.trans h.width⟩
  | kept => exact h
  | cleared => exact ⟨h.hasher, h.hashes, h.size, h.width⟩

theorem Shaped.cleared (h : Shaped start f) : Tracks start [] f.clear :=
  ⟨⟨h.hasher, h.hashes, h.size, h.width⟩, rfl, fun _ _ _ => Counters.read_zeros ..⟩

/-- One request keeps the exact counters exact, as long as their load fits and only held copies go. -/
theorem Tracks.next (h : Tracks start log f) (effect : Effect f event g) (going : event.1 ≠ .clear)
    (sparing : Sparing true (log ++ [event])) : Tracks start (log ++ [event]) g := by
  have shaped := h.toShaped.next effect
  cases effect with
  | @stored _ data cells _ retained raised =>
    have held : live true (log ++ [event]) = data ::ₘ live true log := by rw [live_concat, retained]
    refine ⟨shaped, by rw [held, Multiset.card_cons, h.count], fun cell inside within => ?_⟩
    have fits := within.now
    rw [held, load_cons] at fits ⊢
    -- a load that fits tells that the counter has not stopped at its maximum
    have exact := h.exact cell inside within.before
    have after := raised.read cell (h.size.symm ▸ inside)
    simp only [h.positions, h.max] at after
    rw [after, exact, min_eq_left fits]
  | @erased data cells lowered =>
    -- an item that is not held could pass the test, and would take what others have counted
    have member : data ∈ live true log := sparing.last
    have held : live true (log ++ [(.containsThenErase data, .ok (some true))]) =
        (live true log).erase data := by rw [live_concat, retain]
    refine ⟨shaped, ?_, fun cell inside within => ?_⟩
    · rw [held, Multiset.card_erase_of_mem member, ← h.count]
      rfl
    · have exact := h.exact cell inside within.before
      have after := lowered.read cell (h.size.symm ▸ inside)
      simp only [h.positions] at after
      rw [held, load_erase _ member, after, exact]
  | kept _ retained =>
    have held : live true (log ++ [event]) = live true log := by rw [live_concat, retained]
    refine ⟨shaped, held.symm ▸ h.count, fun cell inside within => ?_⟩
    rw [held]
    exact h.exact cell inside within.before
  | cleared => exact absurd rfl going

/-- No request fails, and since the last clearing the counters have been tracked. -/
theorem run_tracks (pos : 0 < start.cells.size) (fresh : Tracks start [] start) (requests : List Request) :
    let (log, f) := serve operations.step start requests
    (∀ event ∈ log, ∃ answer, event.2 = .ok answer) ∧ Shaped start f ∧
      (Sparing true (sinceClear log) → Tracks start (sinceClear log) f) := by
  refine serve_induction (P := fun log f => (∀ event ∈ log, ∃ answer, event.2 = .ok answer) ∧
    Shaped start f ∧ (Sparing true (sinceClear log) → Tracks start (sinceClear log) f)) ?_ ?_ requests
  · exact ⟨List.forall_mem_nil _, fresh.toShaped, fun _ => fresh⟩
  · rintro log f request ⟨answers, shaped, tracks⟩
    obtain ⟨answered, effect⟩ := step_effect (shaped.size.symm ▸ pos) request
    refine ⟨fun event member => ?_, shaped.next effect, fun sparing => ?_⟩
    · rcases List.mem_append.mp member with earlier | last
      · exact answers event earlier
      · exact List.mem_singleton.mp last ▸ answered
    · rw [sinceClear_concat] at sparing ⊢
      split
      next cleared =>
        obtain rfl : request = .clear := cleared
        exact shaped.cleared
      next going =>
        rw [if_neg going] at sparing
        exact (tracks sparing.before).next effect going sparing

end Runs

theorem empty_tracks (m k bits : Nat) (hasher : Hasher) :
    Tracks (empty m k bits hasher) [] (empty m k bits hasher) :=
  ⟨⟨rfl, rfl, rfl, rfl⟩, rfl, fun _ _ _ => Counters.read_zeros ..⟩

theorem Tracks.contains {start f : CountingBloom} {log : List Event} (h : Tracks start log f)
    (inside : 0 < f.cells.size) {data : ByteArray} (member : data ∈ live true log)
    (sound : ∀ cell ∈ start.positions data, Within start.cells.max start.positions log cell) :
    ∀ i ∈ f.positions data, f.cells.read i ≠ 0 := by
  intro i hit
  have place := h.size ▸ positions_lt inside data i hit
  rw [h.positions] at hit
  have most := count_le_load start.positions member i
  have own := List.count_pos_iff.mpr hit
  rw [h.exact i place (sound i hit)]
  omega

/-- While only held items are erased, each counter whose load has always fitted since the last clearing is
its load. A held item with such counters alone is contained and can be erased, the count is the number of
held copies, and an erasure that is refused changes nothing. -/
theorem counters_hold_their_loads (m k bits : Nat) (hasher : Hasher) (requests : List Request)
    (pos : 0 < m)
    (sparing : Sparing true (sinceClear (serve operations.step (empty m k bits hasher) requests).1)) :
    let start := empty m k bits hasher
    let log := (serve operations.step start requests).1
    let f := (serve operations.step start requests).2
    let recent := sinceClear log
    let held := live true recent
    let sound := Within (2 ^ bits - 1) start.positions recent
    (∀ event ∈ log, ∃ answer, event.2 = .ok answer) ∧
    (∀ cell < m, sound cell → f.cells.get cell = .ok (load start.positions held cell)) ∧
    (∀ data ∈ held, (∀ cell ∈ start.positions data, sound cell) →
      f.contains data = .ok true ∧ ∃ g, f.containsThenErase data = .ok (true, g)) ∧
    f.count = held.card ∧
    ∀ data g, f.containsThenErase data = .ok (false, g) → g = f := by
  intro start log f recent held sound
  have max : start.cells.max = 2 ^ bits - 1 := by
    rw [Counters.max, Nat.one_shiftLeft]
    rfl
  obtain ⟨answers, shaped, tracks⟩ := run_tracks pos (empty_tracks m k bits hasher) requests
  have tracked : Tracks start recent f := tracks sparing
  have inside : 0 < f.cells.size := shaped.size.symm ▸ pos
  refine ⟨answers, fun cell here fits => ?_, fun data member fits => ?_, tracked.count, fun data g run => ?_⟩
  · rw [Counters.get_of_lt (shaped.size.symm ▸ here), tracked.exact cell here (max.symm ▸ fits)]
  · have contained := tracked.contains inside member fun cell hit => max.symm ▸ fits cell hit
    obtain ⟨cells, run, -⟩ := containsThenErase_of_mem inside contained
    exact ⟨(contains_eq inside data).trans (congrArg Except.ok (decide_eq_true contained)), _, run⟩
  · by_cases member : ∀ i ∈ f.positions data, f.cells.read i ≠ 0
    · obtain ⟨cells, other, -⟩ := containsThenErase_of_mem inside member
      cases run.symm.trans other
    · cases run.symm.trans (containsThenErase_of_notMem inside member)
      rfl

/-- Four counters of two bits, two hash functions. -/
private def fourCounters : CountingBloom := empty 4 2 2 .leadingBytes

/-- The first two items overflow the counter that they share, so that the last erasure is refused; the
third item hits its one counter twice. -/
private def crowding : List Request :=
  [.insert (Hasher.dataOf 0 1), .clear, .insert (Hasher.dataOf 0 1), .insert (Hasher.dataOf 0 1),
    .insert (Hasher.dataOf 1 1), .containsThenInsert (Hasher.dataOf 1 1), .insert (Hasher.dataOf 3 0),
    .containsThenErase (Hasher.dataOf 0 1), .containsThenErase (Hasher.dataOf 0 1),
    .containsThenErase (Hasher.dataOf 1 1), .containsThenErase (Hasher.dataOf 1 1)]

/-- What is logged after the clearing. -/
private def crowded : List Event :=
  [(.insert (Hasher.dataOf 0 1), .ok none), (.insert (Hasher.dataOf 0 1), .ok none),
    (.insert (Hasher.dataOf 1 1), .ok none),
    (.containsThenInsert (Hasher.dataOf 1 1), .ok (some true)),
    (.insert (Hasher.dataOf 3 0), .ok none),
    (.containsThenErase (Hasher.dataOf 0 1), .ok (some true)),
    (.containsThenErase (Hasher.dataOf 0 1), .ok (some true)),
    (.containsThenErase (Hasher.dataOf 1 1), .ok (some true)),
    (.containsThenErase (Hasher.dataOf 1 1), .ok (some false))]

set_option maxRecDepth 1000 in
private theorem crowding_log : (serve operations.step fourCounters crowding).1 =
    (.insert (Hasher.dataOf 0 1), .ok none) :: (.clear, .ok none) :: crowded := rfl

set_option maxRecDepth 1000 in
private theorem crowding_cells : (serve operations.step fourCounters crowding).2.cells.toList =
    [0, 0, 1, 2] := by
  decide

private theorem recent_crowding :
    sinceClear (serve operations.step fourCounters crowding).1 = crowded := by
  rw [crowding_log]
  rfl

private theorem crowded_sparing : Sparing true crowded := by
  have inserted : Sparing true (crowded.take 5) :=
    (((((Sparing.nil true).concat (by simp)).concat (by simp)).concat (by simp)).concat
      (by simp)).concat (by simp)
  refine (((inserted.concat fun data same => ?_).concat fun data same => ?_).concat
    fun data same => ?_).concat (by simp)
  · cases same
    decide
  · cases same
    decide
  · cases same
    decide

private theorem crowded_within (cell : Nat) (right : cell = 2 ∨ cell = 3) :
    Within 3 fourCounters.positions crowded cell := by
  have moments : ∀ before ∈ crowded.inits,
      load fourCounters.positions (live true before) 2 ≤ 3 ∧
        load fourCounters.positions (live true before) 3 ≤ 3 := by
    decide
  intro before short
  obtain ⟨two, three⟩ := moments before (List.mem_inits _ _ |>.mpr short)
  rcases right with rfl | rfl
  · exact two
  · exact three

theorem uncrowded_counters_are_exact :
    Sparing true (sinceClear (serve operations.step fourCounters crowding).1) ∧
      (serve operations.step fourCounters crowding).2.cells.toList = [0, 0, 1, 2] ∧
      (serve operations.step fourCounters crowding).2.cells.get 2 = .ok 1 ∧
      (serve operations.step fourCounters crowding).2.contains (Hasher.dataOf 3 0) = .ok true ∧
      (serve operations.step fourCounters crowding).2.count = 2 := by
  have start : empty 4 2 2 .leadingBytes = fourCounters := rfl
  have held : live true crowded = {Hasher.dataOf 1 1, Hasher.dataOf 3 0} := by decide
  have once : load fourCounters.positions {Hasher.dataOf 1 1, Hasher.dataOf 3 0} 2 = 1 := by decide
  have member : Hasher.dataOf 3 0 ∈
      ({Hasher.dataOf 1 1, Hasher.dataOf 3 0} : Multiset ByteArray) := by decide
  have places : ∀ cell ∈ fourCounters.positions (Hasher.dataOf 3 0), cell = 2 ∨ cell = 3 := by decide
  have sparing := recent_crowding.symm ▸ crowded_sparing
  obtain ⟨-, exact, contained, count, -⟩ :=
    counters_hold_their_loads 4 2 2 .leadingBytes crowding (by decide) sparing
  rw [start, recent_crowding, held] at exact contained count
  have two := exact 2 (by decide) (crowded_within 2 (.inl rfl))
  rw [once] at two
  obtain ⟨there, -⟩ := contained _ member fun cell hit => crowded_within cell (places cell hit)
  rw [Multiset.card_pair] at count
  exact ⟨sparing, crowding_cells, two, there, count⟩

end Synopsis.Presence.CountingBloom
