import Synopsis.Presence.StableBloom
import Synopsis.Proofs.Presence.CountingLoads

/-! How long a stable filter remembers. An insertion takes at most one from every cell, because the cells
that fade are in a row of at most the whole filter; so a filled cell lasts as many insertions as its maximum. -/
namespace Synopsis.Presence

theorem optimalDecrements_le {m : Nat} (pos : 0 < m) (k bits : Nat) (rate : Float) :
    optimalDecrements m k bits rate ≤ m := by
  simp only [optimalDecrements]
  split
  · exact pos
  · exact min_le_right ..

namespace StableBloom
open CountingBloom (Swept Lowered)
open Hashing Packed Randomness

variable {σ : Type}

def operations [Source σ] : Operations (StableBloom σ) :=
  .permanent insert contains containsThenInsert clear

/-- A filter that addresses its cells and lets them fade as `start` does. -/
structure Shaped (start f : StableBloom σ) : Prop where
  hasher : f.hasher = start.hasher
  hashes : f.hashes = start.hashes
  decrements : f.decrements = start.decrements
  size : f.cells.size = start.cells.size
  width : f.cells.width = start.cells.width

/-- After so many younger insertions the cells of an item still hold the rest of the maximum. -/
structure Remembers (start : StableBloom σ) (data : ByteArray) (younger : Nat) (f : StableBloom σ) : Prop
    extends Shaped start f where
  lasts : ∀ i ∈ start.positions data, start.cells.max ≤ f.cells.read i + younger

section Shapes
variable {start f : StableBloom σ}

theorem Shaped.positions (h : Shaped start f) : f.positions = start.positions := by
  funext data
  simp only [StableBloom.positions, StableBloom.size, h.hasher, h.hashes, h.size]

theorem Shaped.max (h : Shaped start f) : f.cells.max = start.cells.max := by
  rw [Counters.max, Counters.max, h.width]

theorem Shaped.fits (h : Shaped start f) (fits : start.decrements ≤ start.cells.size) :
    f.decrements ≤ f.cells.size := by
  rw [h.decrements, h.size]
  exact fits

theorem positions_lt (inside : 0 < f.cells.size) (data : ByteArray) :
    ∀ i ∈ f.positions data, i < f.cells.size :=
  f.hasher.positions_lt data f.hashes inside

theorem contains_eq (inside : 0 < f.cells.size) (data : ByteArray) :
    f.contains data = .ok (decide (∀ i ∈ f.positions data, f.cells.read i ≠ 0)) :=
  Counters.covers_eq (positions_lt inside data)

theorem Remembers.contains {data : ByteArray} {younger : Nat} (h : Remembers start data younger f)
    (pos : 0 < start.cells.size) (recent : younger < start.cells.max) : f.contains data = .ok true := by
  rw [contains_eq (h.size.symm ▸ pos), h.toShaped.positions]
  refine congrArg Except.ok (decide_eq_true fun i hit => ?_)
  have lasts := h.lasts i hit
  omega

/-- Every item has a cell. -/
theorem one_le_hashesFor {m : Nat} (pos : 0 < m) (rate : Float) : 1 ≤ hashesFor m rate :=
  le_min (le_max_left ..) pos

theorem ofConfigWith_eq_ok {c : Config} {source : σ} (accepted : ofConfigWith c source = .ok f) :
    0 < c.cells ∧ 1 ≤ c.counterBits ∧
      f = empty c.cells (hashesFor c.cells c.falsePositiveRate)
        (optimalDecrements c.cells (hashesFor c.cells c.falsePositiveRate) c.counterBits c.falsePositiveRate)
        c.counterBits c.hasher source := by
  obtain ⟨_, valid, accepted⟩ := bind_eq_ok.mp accepted
  obtain ⟨_, shape, accepted⟩ := bind_eq_ok.mp accepted
  obtain ⟨_, cells, -⟩ := bind_eq_ok.mp valid
  obtain ⟨_, width, -⟩ := bind_eq_ok.mp shape
  simp only [require_eq_ok, Bool.and_eq_true, decide_eq_true_eq] at cells width
  cases accepted
  exact ⟨cells, width.1, rfl⟩

end Shapes

variable [Source σ]

/-- The cells that fade before the next insertion: from the drawn start on, going round at the end. -/
def fading (f : StableBloom σ) : List Nat :=
  (List.range f.decrements).map fun i => ((below f.cells.size f.source).1 + i) % f.cells.size

/-- The value of a cell after the next insertion, if that fills the given positions. -/
def refreshed (f : StableBloom σ) (positions : List Nat) (cell : Nat) : Nat :=
  if cell ∈ positions then f.cells.max else f.cells.read cell - f.fading.count cell

section Cells
variable {f : StableBloom σ}

theorem length_fading : f.fading.length = f.decrements := by
  rw [fading, List.length_map, List.length_range]

theorem fading_lt (inside : 0 < f.cells.size) : ∀ cell ∈ f.fading, cell < f.cells.size := by
  intro cell member
  obtain ⟨i, -, rfl⟩ := List.mem_map.mp member
  exact Nat.mod_lt _ inside

/-- A row that is not longer than the filter does not meet itself. -/
theorem fading_nodup (fits : f.decrements ≤ f.cells.size) : f.fading.Nodup := by
  refine List.Nodup.map_on (fun i hi j hj same => ?_) List.nodup_range
  have below_size {n : Nat} (member : n ∈ List.range f.decrements) : n < f.cells.size :=
    (List.mem_range.mp member).trans_le fits
  have steps : i ≡ j [MOD f.cells.size] := Nat.ModEq.add_left_cancel' _ same
  exact steps.eq_of_lt_of_lt (below_size hi) (below_size hj)

/-- A row without repetitions takes one at most from a cell. -/
theorem refreshed_eq (fits : f.decrements ≤ f.cells.size) (positions : List Nat) (cell : Nat) :
    f.refreshed positions cell =
      if cell ∈ positions then f.cells.max
      else if cell ∈ f.fading then f.cells.read cell - 1 else f.cells.read cell := by
  rw [refreshed]
  by_cases fades : cell ∈ f.fading
  · rw [List.count_eq_one_of_mem (fading_nodup fits) fades, if_pos fades]
  · rw [List.count_eq_zero_of_not_mem fades, if_neg fades, Nat.sub_zero]

theorem read_le_refreshed (fits : f.decrements ≤ f.cells.size) (positions : List Nat) (cell : Nat) :
    f.cells.read cell ≤ f.refreshed positions cell + 1 := by
  have bound := f.cells.read_le_max cell
  rw [refreshed_eq fits]
  split
  · omega
  · split <;> omega

theorem fade_lowered (inside : 0 < f.cells.size) :
    ∃ cells source, fade f.cells f.decrements f.source = .ok (cells, source) ∧
      Lowered f.cells f.fading cells := by
  by_cases steady : f.decrements = 0
  · refine ⟨f.cells, f.source, ?_, ?_⟩
    · rw [fade, if_pos steady]
      rfl
    · rw [fading, steady]
      exact Lowered.nil f.cells
  · let start := (below f.cells.size f.source).1
    obtain ⟨cells, run, lowered⟩ : ∃ cells, fadeFrom start f.decrements f.cells = .ok cells ∧
        Lowered f.cells f.fading cells := by
      refine foldlM_keeps (P := fun done => Lowered f.cells (done.map fun i => (start + i) % f.cells.size))
        (Lowered.nil f.cells) fun done i after _ lowered => ?_
      have here : (start + i) % f.cells.size < f.cells.size := Nat.mod_lt _ inside
      obtain ⟨next, run, more⟩ := Lowered.step lowered here
      rw [lowered.size, List.map_append]
      exact ⟨next, run, more⟩
    refine ⟨cells, (below f.cells.size f.source).2, ?_, lowered⟩
    simp only [fade, if_neg steady]
    change (fadeFrom start f.decrements f.cells >>= fun cells => pure (cells, _)) = _
    rw [run]
    rfl

theorem fill_swept {cells : Counters} {positions : List Nat} (inside : ∀ i ∈ positions, i < cells.size) :
    ∃ after, positions.foldlM (fun c i => c.set i cells.max) cells = .ok after ∧
      Swept cells (fun j => if j ∈ positions then cells.max else cells.read j) after := by
  refine foldlM_keeps (P := fun done => Swept cells fun j => if j ∈ done then cells.max else cells.read j)
    ⟨rfl, rfl, fun j _ => by simp⟩ fun done i after listed swept => ?_
  have here : i < after.size := swept.size.symm ▸ inside i listed
  refine ⟨_, Counters.set_of_lt here cells.max, swept.size, swept.width, fun j hj => ?_⟩
  rw [Counters.read_write here (min_le_right ..), swept.max, min_self, swept.read j hj]
  by_cases same : i = j
  · simp [same]
  · simp [same, Ne.symm same]

theorem fill_eq (inside : 0 < f.cells.size) {positions : List Nat}
    (places : ∀ i ∈ positions, i < f.cells.size) :
    ∃ cells source, f.fill positions = .ok { f with cells, source, count := f.count + 1 } ∧
      Swept f.cells (f.refreshed positions) cells := by
  obtain ⟨faded, source, first, lowered⟩ := fade_lowered inside
  have there : ∀ i ∈ positions, i < faded.size := fun i member => lowered.size.symm ▸ places i member
  obtain ⟨cells, last, swept⟩ := fill_swept there
  refine ⟨cells, source, ?_, swept.size.trans lowered.size, swept.width.trans lowered.width, fun j hj => ?_⟩
  · simp only [fill, first]
    change (positions.foldlM (fun c i => c.set i faded.max) faded >>= fun cells => _) = _
    rw [last]
    rfl
  · rw [swept.read j (lowered.size.symm ▸ hj), lowered.max, lowered.read j hj]
    rfl

/-- Reading goes on after a cell that is zero, to no other answer. -/
theorem seen_eq {cells : Counters} {positions : List Nat} (inside : ∀ i ∈ positions, i < cells.size) (before : Bool) :
    positions.foldlM (see cells) before = .ok (before && decide (∀ i ∈ positions, cells.read i ≠ 0)) := by
  induction positions generalizing before with
  | nil => simp [pure, Except.pure]
  | cons i rest ih =>
    obtain ⟨here, there⟩ := List.forall_mem_cons.mp inside
    simp only [List.foldlM_cons, see, Counters.get_of_lt here, List.forall_mem_cons]
    change ((if cells.read i = 0 then pure false else pure before) >>= _) = _
    by_cases zero : cells.read i = 0
    · rw [if_pos zero]
      exact (ih there false).trans (by simp [zero])
    · rw [if_neg zero]
      exact (ih there before).trans (by simp [zero])

theorem fused (inside : 0 < f.cells.size) : operations.Fused f := by
  intro data
  have places := positions_lt inside data
  obtain ⟨cells, source, filled, -⟩ := fill_eq inside places
  refine .done (contains_eq inside data) filled ?_
  simp only [operations, Operations.permanent, containsThenInsert, seen_eq places, Bool.true_and, filled]
  rfl

end Cells

/-- All that serving a request can do to a filter. -/
inductive Effect (f : StableBloom σ) : Request → StableBloom σ → Prop
  | filled {request : Request} {data : ByteArray} {cells : Counters} {source : σ}
      (inserts : offer? request = some data) (swept : Swept f.cells (f.refreshed (f.positions data)) cells) :
      Effect f request { f with cells, source, count := f.count + 1 }
  | kept {request : Request} (going : request ≠ .clear) (spared : offer? request = none) : Effect f request f
  | cleared : Effect f .clear f.clear

theorem Effect.swept {f g : StableBloom σ} {request : Request} {data : ByteArray} (h : Effect f request g)
    (inserts : offer? request = some data) : Swept f.cells (f.refreshed (f.positions data)) g.cells := by
  cases h with
  | filled inserted swept =>
    cases inserts.symm.trans inserted
    exact swept
  | kept _ spared => cases inserts.symm.trans spared
  | cleared => cases inserts

theorem step_effect {f : StableBloom σ} (inside : 0 < f.cells.size) (request : Request) :
    (∃ answer, (operations.step f request).1 = .ok answer) ∧
      Effect f request (operations.step f request).2 := by
  cases request with
  | insert data =>
    obtain ⟨cells, source, run, swept⟩ := fill_eq inside (positions_lt inside data)
    simp only [Operations.step, operations, Operations.permanent, insert, run]
    exact ⟨⟨_, rfl⟩, .filled rfl swept⟩
  | contains data =>
    simp only [Operations.step, operations, Operations.permanent, contains_eq inside]
    exact ⟨⟨_, rfl⟩, .kept (by simp) rfl⟩
  | containsThenInsert data =>
    obtain ⟨cells, source, run, swept⟩ := fill_eq inside (positions_lt inside data)
    have both := (fused inside data).eq_ok (contains_eq inside data) run
    simp only [Operations.step, both]
    exact ⟨⟨_, rfl⟩, .filled rfl swept⟩
  | containsThenErase data => exact ⟨⟨_, rfl⟩, .kept (by simp) rfl⟩
  | clear => exact ⟨⟨_, rfl⟩, .cleared⟩

section Runs
variable {start f g : StableBloom σ} {data : ByteArray} {request : Request} {younger : Nat}

theorem Shaped.next (h : Shaped start f) (effect : Effect f request g) : Shaped start g := by
  cases effect with
  | filled _ swept =>
    exact ⟨h.hasher, h.hashes, h.decrements, swept.size.trans h.size, swept.width.trans h.width⟩
  | kept => exact h
  | cleared => exact ⟨h.hasher, h.hashes, h.decrements, h.size, h.width⟩

theorem run_shaped (pos : 0 < start.cells.size) (requests : List Request) :
    (∀ event ∈ (serve operations.step start requests).1, ∃ answer, event.2 = .ok answer) ∧
      Shaped start (serve operations.step start requests).2 := by
  refine serve_induction (P := fun log f => (∀ event ∈ log, ∃ answer, event.2 = .ok answer) ∧
    Shaped start f) ⟨List.forall_mem_nil _, rfl, rfl, rfl, rfl, rfl⟩ ?_ requests
  rintro log f request ⟨answers, shaped⟩
  obtain ⟨answered, effect⟩ := step_effect (shaped.size.symm ▸ pos) request
  exact ⟨List.forall_mem_append.mpr ⟨answers, List.forall_mem_singleton.mpr answered⟩, shaped.next effect⟩

theorem Shaped.remembers (h : Shaped start f) (pos : 0 < start.cells.size)
    (inserts : offer? request = some data) (effect : Effect f request g) : Remembers start data 0 g := by
  refine ⟨h.next effect, fun i hit => ?_⟩
  rw [← h.positions] at hit
  have place : i < f.cells.size := positions_lt (h.size.symm ▸ pos) data i hit
  rw [(effect.swept inserts).read i place, refreshed, if_pos hit, h.max]
  exact Nat.le_add_right ..

theorem Remembers.next (h : Remembers start data younger f) (pos : 0 < start.cells.size)
    (fits : start.decrements ≤ start.cells.size) (going : request ≠ .clear) (effect : Effect f request g) :
    Remembers start data (younger + (offered [request]).card) g := by
  refine ⟨h.toShaped.next effect, fun i hit => ?_⟩
  have before := h.lasts i hit
  have place : i < f.cells.size :=
    positions_lt (h.size.symm ▸ pos) data i (h.toShaped.positions ▸ hit)
  cases effect with
  | @filled _ other cells source inserted swept =>
    have faded := read_le_refreshed (h.toShaped.fits fits) (f.positions other) i
    have one : (offered [request]).card = 1 := by simp [offered, inserted]
    have after := swept.read i place
    dsimp only
    omega
  | kept _ _ => omega
  | cleared => exact absurd rfl going

theorem run_remembers (pos : 0 < start.cells.size) (fits : start.decrements ≤ start.cells.size)
    (h : Remembers start data younger f) (after : List Request)
    (going : ∀ request ∈ after, request ≠ .clear) :
    Remembers start data (younger + (offered after).card) (serve operations.step f after).2 := by
  induction after generalizing younger f with
  | nil => exact h
  | cons request rest ih =>
    obtain ⟨first, others⟩ := List.forall_mem_cons.mp going
    obtain ⟨-, effect⟩ := step_effect (h.size.symm ▸ pos) request
    have more := ih (h.next pos fits first effect) others
    rw [Nat.add_assoc, ← Multiset.card_add, ← offered_append] at more
    exact more

end Runs

/-- Every insertion takes one from as many different cells as there are decrements, in a row that any cell may begin,
and fills the cells of its item, which has one at least. So an item stays contained while the items inserted after it
are fewer than the maximum of a cell, whatever the random starts are. -/
theorem recent_items_are_contained (c : Config) (source : σ) (start : StableBloom σ)
    (accepted : ofConfigWith c source = .ok start) :
    (∀ m k bits rate, 0 < m → optimalDecrements m k bits rate ≤ m) ∧
    (c.cells < UInt64.size → ∀ cell < c.cells, ∃ words : List UInt32, (below c.cells words).1 = cell) ∧
    1 ≤ start.hashes ∧ start.decrements = optimalDecrements c.cells start.hashes c.counterBits c.falsePositiveRate ∧
    ∀ requests,
      let log := (serve operations.step start requests).1
      let f := (serve operations.step start requests).2
      (∀ event ∈ log, ∃ answer, event.2 = .ok answer) ∧
      f.fading.length = start.decrements ∧ f.fading.Nodup ∧ (∀ cell ∈ f.fading, cell < c.cells) ∧
      ∀ request data, offer? request = some data →
        let g := (operations.step f request).2
        (∀ cell < c.cells, g.cells.get cell = .ok
          (if cell ∈ start.positions data then 2 ^ c.counterBits - 1
            else if cell ∈ f.fading then f.cells.read cell - 1 else f.cells.read cell)) ∧
        ∀ after, (∀ later ∈ after, later ≠ .clear) → (offered after).card ≤ 2 ^ c.counterBits - 2 →
          (serve operations.step g after).2.contains data = .ok true := by
  obtain ⟨pos, wide, rfl⟩ := ofConfigWith_eq_ok accepted
  refine ⟨fun m k bits rate pos => optimalDecrements_le pos k bits rate, fun word cell => exists_below word,
    one_le_hashesFor pos _, rfl, fun requests => ?_⟩
  generalize start_eq : empty c.cells _ _ c.counterBits c.hasher source = start
  have size : start.cells.size = c.cells := start_eq ▸ rfl
  have max : start.cells.max = 2 ^ c.counterBits - 1 := by
    rw [← Nat.one_shiftLeft, ← start_eq]
    rfl
  have fits : start.decrements ≤ start.cells.size := by
    rw [size, ← start_eq]
    exact optimalDecrements_le pos ..
  rw [← size] at pos ⊢
  intro log f
  obtain ⟨answers, shaped⟩ := run_shaped pos requests
  have inside : 0 < f.cells.size := shaped.size.symm ▸ pos
  have room := shaped.fits fits
  refine ⟨answers, length_fading.trans shaped.decrements, fading_nodup room, shaped.size ▸ fading_lt inside,
    fun request data inserts => ?_⟩
  intro g
  obtain ⟨-, effect⟩ := step_effect inside request
  have swept := effect.swept inserts
  refine ⟨fun cell here => ?_, fun after going few => ?_⟩
  · have place : cell < f.cells.size := shaped.size.symm ▸ here
    rw [Counters.get_of_lt (swept.size.symm ▸ place), swept.read cell place, refreshed_eq room,
      shaped.positions, shaped.max, max]
  · have remembers := run_remembers pos fits (shaped.remembers pos inserts effect) after going
    refine remembers.contains pos ?_
    have two : 2 ^ 1 ≤ 2 ^ c.counterBits := Nat.pow_le_pow_right (by decide) wide
    omega

/-- Two insertions can follow before a cell of two bits may be empty. -/
private def twoBits : Config :=
  { cells := 4, counterBits := 2, falsePositiveRate := 0.1, hasher := .leadingBytes }

theorem older_item_is_contained :
    ∃ start, ofConfigWith twoBits (ChaCha.Stream.ofSeed 7) = .ok start ∧
      (serve operations.step start [.insert (Hasher.dataOf 0 1), .insert (Hasher.dataOf 2 1),
        .containsThenInsert (Hasher.dataOf 3 0)]).2.contains (Hasher.dataOf 0 1) = .ok true := by
  obtain ⟨start, accepted⟩ : ∃ start, ofConfigWith twoBits (ChaCha.Stream.ofSeed 7) = .ok start := ⟨_, rfl⟩
  obtain ⟨-, -, -, -, runs⟩ := recent_items_are_contained twoBits (ChaCha.Stream.ofSeed 7) start accepted
  obtain ⟨-, -, -, -, inserted⟩ := runs []
  obtain ⟨-, remembered⟩ := inserted (.insert (Hasher.dataOf 0 1)) (Hasher.dataOf 0 1) rfl
  exact ⟨start, accepted, remembered [.insert (Hasher.dataOf 2 1), .containsThenInsert (Hasher.dataOf 3 0)]
    (by decide) (by decide)⟩

end StableBloom
end Synopsis.Presence
