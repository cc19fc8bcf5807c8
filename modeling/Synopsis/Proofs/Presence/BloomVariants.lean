import Synopsis.Presence.StableBloom
import Synopsis.Proofs.Packed.CellLoops
import Synopsis.Proofs.Presence.CountingLoads
import Synopsis.Proofs.Presence.DeletableErasures
import Synopsis.Proofs.Presence.ItemUnions
import Synopsis.Proofs.Presence.StableFading

/-! Variants of the Bloom filter while nothing is erased. Bits, counters of any width, bits with collision flags
and cells that do not fade are one union of hits, so the variants answer alike and the same cells are non-zero. -/
namespace Synopsis.Presence
open Hashing Packed Randomness
open Counters (Sound Touches support)

/-- The cells that are not zero are those that the items hit, and the items are counted. -/
structure Filled (size width : Nat) (hits : ByteArray → Finset Nat) (items : List ByteArray) (cells : Counters)
    (count : Nat) : Prop where
  sound : cells.Sound size width
  support : cells.support = covered hits items
  count : count = items.length

/-- The cells that an item hits, each once. -/
def struck (positions : ByteArray → List Nat) (data : ByteArray) : Finset Nat := (positions data).toFinset

theorem zeros_filled (size width : Nat) (hits : ByteArray → Finset Nat) :
    Filled size width hits [] (.zeros size width) 0 :=
  ⟨Counters.zeros_sound size width, Counters.support_zeros size width, rfl⟩

theorem Filled.clear {size width count : Nat} {hits : ByteArray → Finset Nat} {items : List ByteArray}
    {cells : Counters} (h : Filled size width hits items cells count) : Filled size width hits [] cells.clear 0 := by
  rw [h.sound.clear]
  exact zeros_filled size width hits

section Filling
variable {size width count : Nat} {positions own : ByteArray → List Nat} {items : List ByteArray} {cells : Counters}
  {data : ByteArray}

/-- A filter tests its own positions, which are those that the cells were filled at. -/
theorem Filled.covers (h : Filled size width (struck positions) items cells count) (same : own = positions)
    (inside : ∀ i ∈ own data, i < cells.size) :
    cells.covers (own data) = .ok (covers (struck positions) items data) := by
  rw [Counters.covers_eq_support inside, h.support, same]
  rfl

/-- Touching what an item hits adds the item, whatever else a touch keeps in the state. -/
theorem Filled.sweep {σ : Type} {view : σ → Counters} {touch : σ → Nat → Outcome σ} {Good : σ → Prop} {s : σ}
    (touches : Touches view touch Good) (h : Filled size width (struck positions) items (view s) count) (good : Good s)
    (sound : ∀ t, Good t → (view t).Sound size width) (same : own = positions)
    (inside : ∀ i ∈ own data, i < (view s).size) {β : Type} (build : σ → β) :
    ∃ t, (do let t ← (own data).foldlM touch s; return build t : Outcome β) = .ok (build t) ∧ Good t ∧
      Filled size width (struck positions) (items ++ [data]) (view t) (count + 1) := by
  obtain ⟨t, run, touched⟩ := touches.all good inside
  refine ⟨t, ?_, touched.good, sound t touched.good, ?_, ?_⟩
  · rw [run]
    rfl
  · rw [touched.support, h.support, covered_concat, same]
    rfl
  · rw [h.count, List.length_append, List.length_singleton]

end Filling

namespace Bloom

def operations : Operations Bloom := .permanent insert contains containsThenInsert clear

/-- The filter addresses its bits as `start` does and holds those of the items. -/
structure Holds (start : Bloom) (items : List ByteArray) (f : Bloom) : Prop extends
    Filled start.cells.size 1 (struck start.positions) items f.cells f.count where
  hashes : f.hashes = start.hashes
  hasher : f.hasher = start.hasher

theorem empty_holds (m k : Nat) (hasher : Hasher) : Holds (empty m k hasher) [] (empty m k hasher) :=
  ⟨zeros_filled .., rfl, rfl⟩

section Operations
variable {start f : Bloom} {items : List ByteArray}

theorem positions_lt (inside : 0 < f.cells.size) (data : ByteArray) : ∀ i ∈ f.positions data, i < f.cells.size := by
  intro i hit
  obtain ⟨n, -, rfl⟩ := List.mem_map.mp hit
  exact Probe.index_lt _ _ inside

theorem Holds.positions (h : Holds start items f) : f.positions = start.positions := by
  funext data
  simp only [Bloom.positions, Bloom.size, h.hasher, h.hashes, h.sound.size]
  rfl

theorem fused (f : Bloom) : operations.Fused f := by
  intro data
  have places := (Nat.eq_zero_or_pos f.cells.size).imp_right fun pos => positions_lt pos data
  exact (Counters.set_grows Nat.one_pos).fusion places fun cells => { f with cells, count := f.count + 1 }

private theorem bits_touched (size : Nat) : Touches id (fun c i => c.set i 1) (Sound size 1) :=
  Counters.set_touches Nat.one_pos Nat.one_pos

theorem represents (start : Bloom) (pos : 0 < start.cells.size) :
    Represents (struck start.positions) operations (Holds start) := by
  have inside {items : List ByteArray} {f : Bloom} (h : Holds start items f) (data : ByteArray) :
      ∀ i ∈ f.positions data, i < f.cells.size := positions_lt (h.sound.size.symm ▸ pos) data
  constructor
  case insert =>
    intro items f h data
    obtain ⟨cells, run, -, filled⟩ := h.sweep (bits_touched _) h.sound (fun _ sound => sound) h.positions
      (inside h data) fun cells => { f with cells, count := f.count + 1 }
    exact ⟨_, run, filled, h.hashes, h.hasher⟩
  case contains =>
    intro items f h data
    exact h.covers h.positions (inside h data)
  case fused => exact fun _ => fused _
  case clear =>
    intro items f h
    exact ⟨h.toFilled.clear, h.hashes, h.hasher⟩

end Operations
end Bloom

namespace CountingBloom

/-- The filter addresses its counters as `start` does, and those that are not zero are hit by the items. -/
structure Holds (start : CountingBloom) (items : List ByteArray) (f : CountingBloom) : Prop extends
    Filled start.cells.size start.cells.width (struck start.positions) items f.cells f.count where
  hashes : f.hashes = start.hashes
  hasher : f.hasher = start.hasher

theorem empty_holds (m k bits : Nat) (hasher : Hasher) : Holds (empty m k bits hasher) [] (empty m k bits hasher) :=
  ⟨zeros_filled .., rfl, rfl⟩

section Operations
variable {start f : CountingBloom} {items : List ByteArray}

theorem Holds.positions (h : Holds start items f) : f.positions = start.positions := by
  funext data
  simp only [CountingBloom.positions, CountingBloom.size, h.hasher, h.hashes, h.sound.size]

/-- A counter that is hit never stops at zero, however narrow it is. -/
theorem represents (start : CountingBloom) (pos : 0 < start.cells.size) (wide : 0 < start.cells.width) :
    Represents (struck start.positions) operations (Holds start) := by
  have touches : Touches id (fun c i => c.adjust i 1) (Sound start.cells.size start.cells.width) :=
    Counters.count_touches wide
  have inside {items : List ByteArray} {f : CountingBloom} (h : Holds start items f) (data : ByteArray) :
      ∀ i ∈ f.positions data, i < f.cells.size := positions_lt (h.sound.size.symm ▸ pos) data
  constructor
  case insert =>
    intro items f h data
    obtain ⟨cells, run, -, filled⟩ := h.sweep touches h.sound (fun _ sound => sound) h.positions (inside h data)
      fun cells => { f with cells, count := f.count + 1 }
    exact ⟨_, run, filled, h.hashes, h.hasher⟩
  case contains =>
    intro items f h data
    exact h.covers h.positions (inside h data)
  case fused => exact fun _ => fused _
  case clear =>
    intro items f h
    exact ⟨h.toFilled.clear, h.hashes, h.hasher⟩

end Operations
end CountingBloom

namespace DeletableBloom

def operations : Operations DeletableBloom :=
  ⟨insert, contains, containsThenInsert, containsThenErase, clear⟩

theorem operations_step : operations.step = step := by
  funext f request
  cases request with
  | insert data => rfl
  | contains data => rfl
  | containsThenInsert data => rfl
  | containsThenErase data => rfl
  | clear => rfl

/-- The bits, and a flag for the region of each. -/
structure Flagged (size regionSize : Nat) (state : Counters × Counters) : Prop where
  sound : state.1.Sound size 1
  regions : ∀ i < size, i / regionSize < state.2.size

section Marking
variable {regionSize i : Nat} {cells flags : Counters}

theorem markOrSet_of_set (inside : i < cells.size) (region : i / regionSize < flags.size) (set : cells.read i = 1) :
    markOrSet regionSize (cells, flags) i = .ok (cells, flags.write (i / regionSize) (min 1 flags.max)) := by
  simp only [markOrSet, Counters.get_of_lt inside, Counters.set_of_lt region]
  exact if_pos set

theorem markOrSet_of_unset (inside : i < cells.size) (unset : cells.read i ≠ 1) :
    markOrSet regionSize (cells, flags) i = .ok (cells.write i (min 1 cells.max), flags) := by
  simp only [markOrSet, Counters.get_of_lt inside, Counters.set_of_lt inside]
  exact if_neg unset

/-- A bit that is set already stays set, so marking its region is no less than setting it. -/
theorem markOrSet_touches (size regionSize : Nat) :
    Touches Prod.fst (markOrSet regionSize) (Flagged size regionSize) := by
  rintro ⟨cells, flags⟩ i ⟨sound, regions⟩ inside
  have region := regions i (sound.size ▸ inside)
  have top := sound.max_pos Nat.one_pos
  by_cases set : cells.read i = 1
  · refine ⟨_, markOrSet_of_set inside region set, ⟨sound, regions⟩, rfl, ?_⟩
    have there : i ∈ cells.support := Counters.mem_support.mpr ⟨inside, by omega⟩
    exact (Finset.insert_eq_of_mem there).symm
  · refine ⟨_, markOrSet_of_unset inside set, ⟨sound.write _ _, regions⟩, rfl, ?_⟩
    exact Counters.support_write inside (min_le_right ..) (lt_min Nat.one_pos top)

end Marking

/-- The filter addresses its bits as `start` does and holds those of the items, in whatever regions. -/
structure Holds (start : DeletableBloom) (items : List ByteArray) (f : DeletableBloom) : Prop extends
    Filled start.cells.size 1 (struck start.positions) items f.cells f.count where
  hashes : f.hashes = start.hashes
  hasher : f.hasher = start.hasher
  regions : ∀ i < start.cells.size, i / f.regionSize < f.collisions.size

theorem empty_holds (m regions k : Nat) (hasher : Hasher) :
    Holds (empty (.split (m + regions) regions) regions k hasher) []
      (empty (.split (m + regions) regions) regions k hasher) :=
  ⟨zeros_filled .., rfl, rfl, (empty_keeps m regions k hasher).owned.regions⟩

section Operations
variable {start f : DeletableBloom} {items : List ByteArray}

theorem Holds.positions (h : Holds start items f) : f.positions = start.positions := by
  funext data
  simp only [DeletableBloom.positions, DeletableBloom.size, h.hasher, h.hashes, h.sound.size]

theorem fused (f : DeletableBloom) : operations.Fused f := fusion f

theorem represents (start : DeletableBloom) (pos : 0 < start.cells.size) :
    Represents (struck start.positions) operations (Holds start) := by
  have touches (f : DeletableBloom) := markOrSet_touches start.cells.size f.regionSize
  have inside {items : List ByteArray} {f : DeletableBloom} (h : Holds start items f) (data : ByteArray) :
      ∀ i ∈ f.positions data, i < f.cells.size := positions_lt (h.sound.size.symm ▸ pos) data
  constructor
  case insert =>
    intro items f h data
    obtain ⟨state, run, good, filled⟩ := h.sweep (s := (f.cells, f.collisions)) (touches f) ⟨h.sound, h.regions⟩
      (fun _ good => good.sound) h.positions (inside h data) fun state =>
        { f with cells := state.1, collisions := state.2, count := f.count + 1 }
    exact ⟨_, run, filled, h.hashes, h.hasher, good.regions⟩
  case contains =>
    intro items f h data
    exact h.covers h.positions (inside h data)
  case fused => exact fun _ => fused _
  case clear =>
    intro items f h
    exact ⟨h.toFilled.clear, h.hashes, h.hasher, h.regions⟩

end Operations
end DeletableBloom

namespace StableBloom
variable {σ : Type}

/-- The filter addresses its cells as `start` does, lets none fade, and those not zero are hit by the items. -/
structure Holds (start : StableBloom σ) (items : List ByteArray) (f : StableBloom σ) : Prop extends
    Filled start.cells.size start.cells.width (struck start.positions) items f.cells f.count where
  hashes : f.hashes = start.hashes
  hasher : f.hasher = start.hasher
  steady : f.decrements = 0

theorem empty_holds (m k bits : Nat) (hasher : Hasher) (source : σ) :
    Holds (empty m k 0 bits hasher source) [] (empty m k 0 bits hasher source) :=
  ⟨zeros_filled .., rfl, rfl, rfl⟩

section Operations
variable {start f : StableBloom σ} {items : List ByteArray}

theorem Holds.positions (h : Holds start items f) : f.positions = start.positions := by
  funext data
  simp only [StableBloom.positions, StableBloom.size, h.hasher, h.hashes, h.sound.size]

variable [Source σ]

/-- Without decrements nothing is drawn, and the cells are filled as they are. -/
theorem fill_of_steady (steady : f.decrements = 0) (positions : List Nat) : f.fill positions = (do
    let cells ← positions.foldlM (fun cells i => cells.set i f.cells.max) f.cells
    return { f with cells, count := f.count + 1 }) := by
  simp only [fill, fade, steady, if_true]
  rfl

theorem represents (start : StableBloom σ) (pos : 0 < start.cells.size) (wide : 0 < start.cells.width) :
    Represents (struck start.positions) operations (Holds start) := by
  have inside {items : List ByteArray} {f : StableBloom σ} (h : Holds start items f) (data : ByteArray) :
      ∀ i ∈ f.positions data, i < f.cells.size := positions_lt (h.sound.size.symm ▸ pos) data
  constructor
  case insert =>
    intro items f h data
    obtain ⟨cells, run, -, filled⟩ := h.sweep (Counters.set_touches wide (h.sound.max_pos wide)) h.sound
      (fun _ sound => sound) h.positions (inside h data) fun cells => { f with cells, count := f.count + 1 }
    exact ⟨_, (fill_of_steady h.steady _).trans run, filled, h.hashes, h.hasher, h.steady⟩
  case contains =>
    intro items f h data
    exact h.covers h.positions (inside h data)
  case fused => exact fun h => fused (h.sound.size.symm ▸ pos)
  case clear =>
    intro items f h
    exact ⟨h.toFilled.clear, h.hashes, h.hasher, h.steady⟩

end Operations

/-- The filter is accepted with every source or with none. -/
theorem unstable_eq_ok {m : Nat} {rate : Float} {source : σ} {f : StableBloom σ}
    (accepted : unstable m rate source = .ok f) :
    f = empty m (optimalHashes rate) 0 1 .murmur source ∧
      ∀ place : σ, unstable m rate place = .ok (empty m (optimalHashes rate) 0 1 .murmur place) := by
  obtain ⟨_, valid, built⟩ := bind_eq_ok.mp accepted
  exact ⟨(Except.ok.inj built).symm, fun place => bind_eq_ok.mpr ⟨_, valid, rfl⟩⟩

end StableBloom

section Agreement
variable {σ : Type} [Source σ]

/-- While nothing is erased, a Bloom filter, a counting filter of any width, a deletable filter with any regions
and a stable filter without decrements answer every request alike, count the same, and the same cells are not
zero. -/
theorem variants_agree (m k bits regions : Nat) (hasher : Hasher) (source : σ) (requests : List Request)
    (pos : 0 < m) (small : m < UInt32.size) (wide : 1 ≤ bits)
    (spared : ∀ data, .containsThenErase data ∉ requests) :
    let plain := serve Bloom.operations.step (.empty m k hasher) requests
    let counting := serve CountingBloom.operations.step (.empty m k bits hasher) requests
    let deletable := serve DeletableBloom.step (.empty (.split (m + regions) regions) regions k hasher) requests
    let stable := serve StableBloom.operations.step (.empty m k 0 1 hasher source) requests
    (∀ rate f, StableBloom.unstable m rate source = .ok f → f = .empty m (optimalHashes rate) 0 1 .murmur source) ∧
    (∀ event ∈ plain.1, ∃ answer, event.2 = .ok answer) ∧
    (counting.1 = plain.1 ∧ deletable.1 = plain.1 ∧ stable.1 = plain.1) ∧
    (counting.2.count = plain.2.count ∧ deletable.2.count = plain.2.count ∧ stable.2.count = plain.2.count) ∧
    (counting.2.cells.support = plain.2.cells.support ∧ deletable.2.cells.support = plain.2.cells.support ∧
      stable.2.cells.support = plain.2.cells.support) := by
  intro plain counting deletable stable
  have size : m + regions - regions = m := Nat.add_sub_cancel m regions
  have idle {F : Type} (o : Operations F) : ∀ request ∈ requests, Idle o request :=
    fun request listed data same => absurd (same ▸ listed) (spared data)
  -- all four hit the same cells
  have narrow : (Bloom.empty m k hasher).positions = (CountingBloom.empty m k bits hasher).positions := by
    funext data
    exact congrArg (fun probe => Probe.positions probe k m) (if_pos small)
  have split : (DeletableBloom.empty (.split (m + regions) regions) regions k hasher).positions =
      (CountingBloom.empty m k bits hasher).positions := by
    funext data
    exact congrArg (hasher.positions data k) size
  have room : 0 < m + regions - regions := size.symm ▸ pos
  obtain ⟨plainLog, plainHolds⟩ := (Bloom.represents (.empty m k hasher) pos).run
    (Bloom.empty_holds ..) (idle _)
  obtain ⟨countingLog, countingHolds⟩ := (CountingBloom.represents (.empty m k bits hasher) pos wide).run
    (CountingBloom.empty_holds ..) (idle _)
  obtain ⟨deletableLog, deletableHolds⟩ := (DeletableBloom.represents
    (.empty (.split (m + regions) regions) regions k hasher) room).run (DeletableBloom.empty_holds ..) (idle _)
  obtain ⟨stableLog, stableHolds⟩ := (StableBloom.represents (.empty m k 0 1 hasher source) pos Nat.one_pos).run
    (StableBloom.empty_holds ..) (idle _)
  rw [DeletableBloom.operations_step] at deletableLog deletableHolds
  have plainSupport := plainHolds.support
  have deletableSupport := deletableHolds.support
  rw [narrow] at plainLog plainSupport
  rw [split] at deletableLog deletableSupport
  have answered : ∀ event ∈ plain.1, ∃ answer, event.2 = .ok answer := by
    rw [plainLog]
    exact keeping_answers _ [] requests
  exact ⟨fun _ _ accepted => (StableBloom.unstable_eq_ok accepted).1, answered,
    ⟨countingLog.trans plainLog.symm, deletableLog.trans plainLog.symm, stableLog.trans plainLog.symm⟩,
    ⟨countingHolds.count.trans plainHolds.count.symm, deletableHolds.count.trans plainHolds.count.symm,
      stableHolds.count.trans plainHolds.count.symm⟩,
    ⟨countingHolds.support.trans plainSupport.symm, deletableSupport.trans plainSupport.symm,
      stableHolds.support.trans plainSupport.symm⟩⟩

end Agreement

/-- The first item hits one cell three times and the second all of them, so that counters of one bit are full
and every region of a deletable filter is given up. -/
private def repeating : List Request :=
  [.containsThenInsert (Hasher.dataOf 1 0), .containsThenInsert (Hasher.dataOf 1 0), .insert (Hasher.dataOf 0 1),
    .contains (Hasher.dataOf 1 2), .clear, .insert (Hasher.dataOf 1 0), .contains (Hasher.dataOf 0 1)]

theorem repeating_hits_agree :
    let plain := serve Bloom.operations.step (.empty 3 3 .leadingBytes) repeating
    let counting := serve CountingBloom.operations.step (.empty 3 3 1 .leadingBytes) repeating
    let deletable := serve DeletableBloom.step (.empty (.split (3 + 2) 2) 2 3 .leadingBytes) repeating
    let stable := serve StableBloom.operations.step (.empty 3 3 0 1 .leadingBytes (ChaCha.Stream.ofSeed 7)) repeating
    0 < 3 ∧ 3 < UInt32.size ∧ 1 ≤ 1 ∧ (∀ data, .containsThenErase data ∉ repeating) ∧
      counting.1 = plain.1 ∧ deletable.1 = plain.1 ∧ stable.1 = plain.1 ∧
      plain.2.cells.support = {1} ∧ counting.2.cells.support = {1} ∧ deletable.2.cells.support = {1} ∧
      stable.2.cells.support = {1} := by
  intro plain counting deletable stable
  have spared : ∀ data, .containsThenErase data ∉ repeating := by simp [repeating]
  obtain ⟨-, -, ⟨second, third, fourth⟩, -, countingCells, deletableCells, stableCells⟩ :=
    variants_agree 3 3 1 2 .leadingBytes (ChaCha.Stream.ofSeed 7) repeating (by decide) (by decide) le_rfl spared
  have cells : plain.2.cells.support = {1} := by decide
  exact ⟨by decide, by decide, le_rfl, spared, second, third, fourth, cells, countingCells.trans cells,
    deletableCells.trans cells, stableCells.trans cells⟩
end Synopsis.Presence
