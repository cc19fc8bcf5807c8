import Synopsis.Proofs.Presence.FusedInsertions

/-! Filters on which no request fails. A filter that has cells has one at each hash position, and requests and the
choice of other hashers leave the sizes of its arrays alone. So every loop over the cells of an item comes to its
end. -/
namespace Synopsis.Presence
open Hashing Packed Randomness

/-- Every request is answered. -/
def Operations.Answers {F : Type} (o : Operations F) (f : F) : Prop :=
  ∀ request, ∃ answer, (o.step f request).1 = .ok answer

/-- The cells that can be addressed are there, and every request is answered. -/
structure Unfailing {F : Type} (o : Operations F) (Addressed : F → Prop) (f : F) : Prop where
  addressed : Addressed f
  answers : o.Answers f

/-- An array has a cell at each position of an item. -/
def Inside (positions : ByteArray → List Nat) (cells : Counters) : Prop :=
  ∀ data, ∀ i ∈ positions data, i < cells.size

/-- An insertion under a test does not fail where neither the test nor the insertion does. -/
theorem Operations.Fused.answers {F : Type} {o : Operations F} {f : F} (fused : o.Fused f)
    (contains : ∀ data, ∃ member, o.contains f data = .ok member)
    (insert : ∀ data, ∃ g, o.insert f data = .ok g)
    (containsThenErase : ∀ data, ∃ result, o.containsThenErase f data = .ok result) : o.Answers f := by
  intro request
  cases request with
  | insert data =>
    obtain ⟨g, run⟩ := insert data
    simp only [Operations.step, run]
    exact ⟨none, rfl⟩
  | contains data =>
    obtain ⟨member, run⟩ := contains data
    simp only [Operations.step, run]
    exact ⟨some member, rfl⟩
  | containsThenInsert data =>
    obtain ⟨member, tested⟩ := contains data
    obtain ⟨g, run⟩ := insert data
    simp only [Operations.step, (fused data).eq_ok tested run]
    exact ⟨some member, rfl⟩
  | containsThenErase data =>
    obtain ⟨⟨member, g⟩, run⟩ := containsThenErase data
    simp only [Operations.step, run]
    exact ⟨some member, rfl⟩
  | clear => exact ⟨none, rfl⟩

namespace Bloom
variable {f : Bloom}

def Addressed (f : Bloom) : Prop := Inside f.positions f.cells

theorem Addressed.insert (h : f.Addressed) (data : ByteArray) : ∃ g, f.insert data = .ok g := by
  obtain ⟨cells, run⟩ : ∃ cells, (f.positions data).foldlM (fun cells i => cells.set i 1) f.cells = .ok cells := by
    refine foldlM_total (fun cells => cells.size = f.cells.size) rfl fun cells i listed size => ?_
    exact ⟨_, Counters.set_of_lt (size.symm ▸ h data i listed) 1, size⟩
  simp only [Bloom.insert, run]
  exact ⟨_, rfl⟩

theorem unfailing_of_pos (pos : 0 < f.cells.size) : Unfailing operations Addressed f := by
  have addressed : f.Addressed := positions_lt pos
  refine ⟨addressed, (fused f).answers (fun data => ⟨_, Counters.covers_eq (addressed data)⟩) addressed.insert ?_⟩
  exact fun data => ⟨_, rfl⟩

theorem size_step (f : Bloom) (request : Request) : (operations.step f request).2.cells.size = f.cells.size := by
  have blank : (operations.step f request).2.clear.cells.size = f.clear.cells.size := by rw [clear_step]
  exact blank

theorem always_unfailing {make : Hasher → Outcome Bloom} (pos : ∀ hasher f, make hasher = .ok f → 0 < f.cells.size) :
    (operations.lifecycle make withHasher).Always (Unfailing operations Addressed) := by
  refine Lifecycle.always_of_invariant (fun hasher _ => pos hasher) (fun f request inside => ?_)
    (fun f hasher inside => inside) fun f => unfailing_of_pos
  exact (size_step f request).symm ▸ inside

/-- The filters of one shape. -/
def shaped (m k : Nat) : Lifecycle Unit Bloom Request :=
  operations.lifecycle (fun hasher => .ok (empty m k hasher)) withHasher

end Bloom

namespace PartitionedBloom
variable {f : PartitionedBloom}

/-- The partitions are as large as they are thought to be, and have a bit at each hash. -/
def Addressed (f : PartitionedBloom) : Prop :=
  ∀ cells ∈ f.partitions, cells.size = f.partitionSize ∧ ∀ data n, f.bit data n < cells.size

theorem Rows.unfailing (h : f.Rows) : Unfailing operations Addressed f := by
  constructor
  case addressed => exact fun cells listed => ⟨(h cells listed).size, fun data => (h cells listed).index_lt _⟩
  case answers =>
    refine (fused f).answers h.contains (fun data => ?_) fun data => ⟨_, rfl⟩
    simp only [operations, Operations.permanent, PartitionedBloom.insert, setEach_eq _ h]
    exact ⟨_, rfl⟩

theorem Rows.step (h : f.Rows) (request : Request) : (operations.step f request).2.Rows := by
  apply operations.step_keeps (P := Rows)
  case insert => exact fun f data g run rows => rows.insert run
  case inserts => exact fun f data member g => (fused f).insert_eq_ok
  case containsThenErase =>
    intro f data member g run rows
    cases run
    exact rows
  case clear => exact fun f => Rows.clear
  case before => exact h

theorem always_unfailing {make : Hasher → Outcome PartitionedBloom} (rows : ∀ hasher f, make hasher = .ok f → f.Rows) :
    (operations.lifecycle make withHasher).Always (Unfailing operations Addressed) :=
  Lifecycle.always_of_invariant (fun hasher _ => rows hasher) (fun _ request h => h.step request)
    (fun _ _ h => h) fun _ => Rows.unfailing

def shaped (m k : Nat) : Lifecycle Unit PartitionedBloom Request :=
  operations.lifecycle (fun hasher => .ok (empty m k hasher)) withHasher

end PartitionedBloom

namespace CountingBloom
variable {f : CountingBloom}

def Addressed (f : CountingBloom) : Prop := Inside f.positions f.cells

theorem unfailing_of_pos (pos : 0 < f.cells.size) : Unfailing operations Addressed f :=
  ⟨positions_lt pos, fun request => (step_effect pos request).1⟩

theorem size_step (f : CountingBloom) (request : Request) :
    (operations.step f request).2.cells.size = f.cells.size := by
  have blank : (operations.step f request).2.clear.cells.size = f.clear.cells.size := by rw [clear_step]
  exact blank

theorem always_unfailing {make : Hasher → Outcome CountingBloom}
    (pos : ∀ hasher f, make hasher = .ok f → 0 < f.cells.size) :
    (operations.lifecycle make withHasher).Always (Unfailing operations Addressed) := by
  refine Lifecycle.always_of_invariant (fun hasher _ => pos hasher) (fun f request inside => ?_)
    (fun f hasher inside => inside) fun f => unfailing_of_pos
  exact (size_step f request).symm ▸ inside

def shaped (m k bits : Nat) : Lifecycle Unit CountingBloom Request :=
  operations.lifecycle (fun hasher => .ok (empty m k bits hasher)) withHasher

end CountingBloom

namespace DeletableBloom
variable {f : DeletableBloom}

/-- Also, each bit is in a region that has a flag. -/
def Addressed (f : DeletableBloom) : Prop :=
  Inside f.positions f.cells ∧ ∀ i < f.cells.size, i / f.regionSize < f.collisions.size

section Loops
variable {regionSize i : Nat} {cells collisions : Counters}

theorem markOrSet_sized (inside : i < cells.size) (region : i / regionSize < collisions.size) :
    ∃ next, markOrSet regionSize (cells, collisions) i = .ok next ∧
      next.1.size = cells.size ∧ next.2.size = collisions.size := by
  by_cases set : cells.read i = 1
  · exact ⟨_, markOrSet_of_set inside region set, rfl, rfl⟩
  · exact ⟨_, markOrSet_of_unset inside set, rfl, rfl⟩

theorem release_sized (inside : i < cells.size) (region : i / regionSize < collisions.size) :
    ∃ next, release regionSize collisions cells i = .ok next ∧ next.size = cells.size := by
  simp only [release, Counters.get_of_lt region, Counters.set_of_lt inside]
  by_cases spared : collisions.read (i / regionSize) = 0
  · exact ⟨_, if_pos spared, rfl⟩
  · exact ⟨_, if_neg spared, rfl⟩

end Loops

theorem Addressed.insert (h : f.Addressed) (data : ByteArray) : ∃ g, f.insert data = .ok g := by
  obtain ⟨state, run⟩ : ∃ state,
      (f.positions data).foldlM (markOrSet f.regionSize) (f.cells, f.collisions) = .ok state := by
    refine foldlM_total (fun state => state.1.size = f.cells.size ∧ state.2.size = f.collisions.size)
      ⟨rfl, rfl⟩ ?_
    rintro ⟨cells, collisions⟩ i listed ⟨bits, flags⟩
    have inside := h.1 data i listed
    obtain ⟨next, run, same, others⟩ := markOrSet_sized (bits.symm ▸ inside) (flags.symm ▸ h.2 i inside)
    exact ⟨next, run, same.trans bits, others.trans flags⟩
  simp only [DeletableBloom.insert, run]
  exact ⟨_, rfl⟩

theorem Addressed.containsThenErase (h : f.Addressed) (data : ByteArray) :
    ∃ result, f.containsThenErase data = .ok result := by
  obtain ⟨cells, run⟩ : ∃ cells,
      (f.positions data).foldlM (release f.regionSize f.collisions) f.cells = .ok cells := by
    refine foldlM_total (fun cells => cells.size = f.cells.size) rfl fun cells i listed size => ?_
    have inside := h.1 data i listed
    obtain ⟨next, run, same⟩ := release_sized (size.symm ▸ inside) (h.2 i inside)
    exact ⟨next, run, same.trans size⟩
  by_cases member : ∀ i ∈ f.positions data, f.cells.read i ≠ 0
  · simp only [DeletableBloom.containsThenErase, Counters.covers_eq (h.1 data), decide_eq_true member, run]
    exact ⟨_, rfl⟩
  · simp only [DeletableBloom.containsThenErase, Counters.covers_eq (h.1 data), decide_eq_false member]
    exact ⟨_, rfl⟩

theorem Addressed.unfailing (h : f.Addressed) : Unfailing operations Addressed f :=
  ⟨h, (fused f).answers (fun data => ⟨_, Counters.covers_eq (h.1 data)⟩) h.insert h.containsThenErase⟩

/-- The filter has bits, in regions that have flags. -/
structure Split (f : DeletableBloom) : Prop where
  pos : 0 < f.cells.size
  regions : ∀ i < f.cells.size, i / f.regionSize < f.collisions.size

theorem empty_split {m : Nat} (pos : 0 < m) (regions k : Nat) (hasher : Hasher) :
    (empty (.split (m + regions) regions) regions k hasher).Split := by
  have size : (empty (.split (m + regions) regions) regions k hasher).cells.size = m := Nat.add_sub_cancel m regions
  exact ⟨size.symm ▸ pos, (empty_keeps m regions k hasher).owned.regions⟩

/-- Clearing keeps the sizes, and a request leaves alone what clearing keeps. -/
theorem Split.step (h : f.Split) (request : Request) : (operations.step f request).2.Split := by
  have blank : (operations.step f request).2.clear.Split := by
    rw [clear_step]
    exact ⟨h.pos, h.regions⟩
  exact ⟨blank.pos, blank.regions⟩

theorem always_unfailing {make : Hasher → Outcome DeletableBloom}
    (split : ∀ hasher f, make hasher = .ok f → f.Split) :
    (operations.lifecycle make withHasher).Always (Unfailing operations Addressed) :=
  Lifecycle.always_of_invariant (fun hasher _ => split hasher) (fun _ request h => h.step request)
    (fun _ _ h => ⟨h.pos, h.regions⟩) fun _ h => Addressed.unfailing ⟨positions_lt h.pos, h.regions⟩

/-- The filters with `m` bits in so many regions. -/
def shaped (m regions k : Nat) : Lifecycle Unit DeletableBloom Request :=
  operations.lifecycle (fun hasher => .ok (empty (.split (m + regions) regions) regions k hasher)) withHasher

end DeletableBloom

namespace StableBloom
variable {σ : Type} [Source σ]

/-- Also, there is a cell wherever the next insertion lets one fade. -/
def Addressed (f : StableBloom σ) : Prop := Inside f.positions f.cells ∧ ∀ i ∈ f.fading, i < f.cells.size

theorem unfailing_of_pos {f : StableBloom σ} (pos : 0 < f.cells.size) : Unfailing operations Addressed f :=
  ⟨⟨positions_lt pos, fading_lt pos⟩, fun request => (step_effect pos request).1⟩

theorem always_unfailing {make : Hasher → σ → Outcome (StableBloom σ)}
    (pos : ∀ hasher source f, make hasher source = .ok f → 0 < f.cells.size) :
    (lifecycleOf make).Always (Unfailing operations Addressed) := by
  refine Lifecycle.always_of_invariant pos (fun f request inside => ?_) (fun f hasher inside => inside)
    fun f => unfailing_of_pos
  exact (size_step f request).symm ▸ inside

def shaped (σ : Type) [Source σ] (m k decrements bits : Nat) : Lifecycle σ (StableBloom σ) Request :=
  lifecycleOf fun hasher source => .ok (empty m k decrements bits hasher source)

end StableBloom

section Constructors
variable {hasher : Hasher}

theorem Bloom.size_of_make {c : Bloom.Config} {f : Bloom} (made : (Bloom.lifecycle c).make hasher () = .ok f) :
    f.cells.size = optimalCells c.capacity c.falsePositiveRate := by
  obtain ⟨_, -, made⟩ := bind_eq_ok.mp made
  obtain ⟨_, -, made⟩ := bind_eq_ok.mp made
  cases made
  rfl

theorem CountingBloom.size_of_make {c : CountingBloom.Config} {f : CountingBloom}
    (made : (CountingBloom.lifecycle c).make hasher () = .ok f) :
    f.cells.size = optimalCells c.capacity c.falsePositiveRate := by
  obtain ⟨_, -, made⟩ := bind_eq_ok.mp made
  obtain ⟨_, -, made⟩ := bind_eq_ok.mp made
  cases made
  rfl

/-- A configuration is accepted only if regions are wanted and leave bits for the items. -/
theorem DeletableBloom.ofConfig_eq_ok {c : DeletableBloom.Config} {f : DeletableBloom}
    (accepted : DeletableBloom.ofConfig c = .ok f) : 0 < c.regions ∧
    ∃ m, 0 < m ∧ optimalCells c.capacity c.falsePositiveRate = m + c.regions ∧
      f = .empty (.split (m + c.regions) c.regions) c.regions (optimalHashes c.falsePositiveRate) c.hasher := by
  obtain ⟨_, valid, made⟩ := bind_eq_ok.mp accepted
  obtain ⟨_, fits, made⟩ := bind_eq_ok.mp made
  obtain ⟨_, -, valid⟩ := bind_eq_ok.mp valid
  obtain ⟨_, -, wanted⟩ := bind_eq_ok.mp valid
  have fewer : c.regions < optimalCells c.capacity c.falsePositiveRate := of_decide_eq_true (require_eq_ok.mp fits)
  have total := (Nat.sub_add_cancel fewer.le).symm
  refine ⟨of_decide_eq_true (require_eq_ok.mp wanted), _, Nat.sub_pos_of_lt fewer, total, ?_⟩
  cases made
  rw [← total]

theorem DeletableBloom.split_of_make {c : DeletableBloom.Config} {f : DeletableBloom}
    (made : (DeletableBloom.lifecycle c).make hasher () = .ok f) : f.Split := by
  obtain ⟨-, m, bits, -, rfl⟩ := DeletableBloom.ofConfig_eq_ok made
  exact empty_split bits ..

end Constructors

/-- Of a filter that has a bit, a counter or a cell at all, no request fails, whatever the hashers are and however often
they are changed. Every position that an item hashes to and every cell that fades exists. So does the bit of each
partition, and the flag of each region, also where the regions do not divide the bits or are more than they. This holds
for filters of every shape, and for those of every configuration that comes to such a shape, which that of a deletable
or a stable filter does if it is accepted. -/
theorem requests_never_fail {σ : Type} [Source σ] {m : Nat} (pos : 0 < m) (k bits decrements regions : Nat) :
    (Bloom.shaped m k).Always (Unfailing Bloom.operations Bloom.Addressed) ∧
    (PartitionedBloom.shaped m k).Always (Unfailing PartitionedBloom.operations PartitionedBloom.Addressed) ∧
    (CountingBloom.shaped m k bits).Always (Unfailing CountingBloom.operations CountingBloom.Addressed) ∧
    (DeletableBloom.shaped m regions k).Always (Unfailing DeletableBloom.operations DeletableBloom.Addressed) ∧
    (StableBloom.shaped σ m k decrements bits).Always (Unfailing StableBloom.operations StableBloom.Addressed) ∧
    (∀ c, 0 < optimalCells c.capacity c.falsePositiveRate →
      (Bloom.lifecycle c).Always (Unfailing Bloom.operations Bloom.Addressed)) ∧
    (∀ e c, 0 < e.optimalCells c.capacity c.falsePositiveRate →
      (PartitionedBloom.lifecycle e c).Always (Unfailing PartitionedBloom.operations PartitionedBloom.Addressed)) ∧
    (∀ c, 0 < optimalCells c.capacity c.falsePositiveRate →
      (CountingBloom.lifecycle c).Always (Unfailing CountingBloom.operations CountingBloom.Addressed)) ∧
    (∀ c, (DeletableBloom.lifecycle c).Always (Unfailing DeletableBloom.operations DeletableBloom.Addressed)) ∧
    (∀ c, (StableBloom.lifecycle σ c).Always (Unfailing StableBloom.operations StableBloom.Addressed)) ∧
    (∀ cells rate, (StableBloom.unstableLifecycle σ cells rate).Always
      (Unfailing StableBloom.operations StableBloom.Addressed)) := by
  refine ⟨Bloom.always_unfailing ?_, PartitionedBloom.always_unfailing ?_, CountingBloom.always_unfailing ?_,
    DeletableBloom.always_unfailing ?_, StableBloom.always_unfailing ?_, fun c sized => Bloom.always_unfailing ?_,
    fun e c sized => PartitionedBloom.always_unfailing ?_, fun c sized => CountingBloom.always_unfailing ?_,
    fun c => DeletableBloom.always_unfailing fun _ _ => DeletableBloom.split_of_make,
    fun c => StableBloom.always_unfailing fun _ _ _ => StableBloom.pos_of_make,
    fun cells rate => StableBloom.always_unfailing fun _ _ _ => StableBloom.pos_of_make_unstable⟩
  · rintro hasher _ ⟨⟩
    exact pos
  · rintro hasher _ ⟨⟩
    exact (PartitionedBloom.empty_holds pos k hasher).rows
  · rintro hasher _ ⟨⟩
    exact pos
  · rintro hasher _ ⟨⟩
    exact DeletableBloom.empty_split pos regions k hasher
  · rintro hasher source _ ⟨⟩
    exact pos
  · exact fun hasher f made => (Bloom.size_of_make made).symm ▸ sized
  · intro hasher f made
    obtain ⟨rfl, -⟩ := PartitionedBloom.ofConfigWith_eq_ok made
    exact (PartitionedBloom.empty_holds sized _ hasher).rows
  · exact fun hasher f made => (CountingBloom.size_of_make made).symm ▸ sized

/-- The bytes from the fourth on instead of the first ones. -/
private def laterBytes : Hasher := ⟨"later-bytes", fun data => .ofBytes (data.data.toList.drop 3)⟩

/-- The hasher is switched between two insertions of an item, and then the item is erased. -/
private def switching : List (Action Request) :=
  [.operation (.insert (Hasher.dataOf 1 1)), .withHasher laterBytes,
    .operation (.containsThenInsert (Hasher.dataOf 1 1)), .operation (.containsThenErase (Hasher.dataOf 1 1))]

/-- Five regions of three bits have three flags, and the hasher that is chosen later marks one of them. -/
theorem switched_hashers_do_not_fail :
    let deletable := (DeletableBloom.shaped 3 5 3).run (.empty (.split (3 + 5) 5) 5 3 .leadingBytes) switching
    let e := (ScalableBloom.short 0.5).elementary
    0 < 3 ∧ Unfailing DeletableBloom.operations DeletableBloom.Addressed deletable ∧
      deletable.cells.toList = [1, 1, 1] ∧ deletable.collisions.toList = [0, 1, 0] ∧
      (∃ start, (StableBloom.lifecycle ChaCha.Stream {}).make .leadingBytes (.ofSeed 7) = .ok start ∧
        Unfailing StableBloom.operations StableBloom.Addressed
          ((StableBloom.lifecycle ChaCha.Stream {}).run start switching)) ∧
      0 < e.optimalCells 1 0.1 ∧
      ∃ start, (PartitionedBloom.lifecycle e ⟨1, 0.1, .leadingBytes⟩).make .leadingBytes () = .ok start ∧
        Unfailing PartitionedBloom.operations PartitionedBloom.Addressed
          ((PartitionedBloom.lifecycle e ⟨1, 0.1, .leadingBytes⟩).run start switching) := by
  intro deletable e
  obtain ⟨-, -, -, regions, -, -, partitioned, -, -, stable, -⟩ :=
    requests_never_fail (σ := ChaCha.Stream) (show 0 < 3 by decide) 3 1 1 5
  have sized : 0 < e.optimalCells 1 0.1 := by decide +kernel
  obtain ⟨start, made⟩ : ∃ start,
    (StableBloom.lifecycle ChaCha.Stream {}).make .leadingBytes (.ofSeed 7) = .ok start := ⟨_, rfl⟩
  obtain ⟨first, opened⟩ : ∃ start,
    (PartitionedBloom.lifecycle e ⟨1, 0.1, .leadingBytes⟩).make .leadingBytes () = .ok start := ⟨_, rfl⟩
  exact ⟨by decide, regions _ () _ rfl switching, by decide, by decide,
    ⟨start, made, stable _ _ _ start made switching⟩, sized, first, opened,
    partitioned e ⟨1, 0.1, .leadingBytes⟩ sized .leadingBytes () first opened switching⟩

end Synopsis.Presence
