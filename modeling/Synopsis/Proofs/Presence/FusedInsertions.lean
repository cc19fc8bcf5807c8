import Synopsis.Proofs.Presence.ClearedBlooms
import Synopsis.Proofs.Presence.ClearedTables

/-! Insertions under a test. The filters that read and write cell by cell are fused whatever their cells hold; a
stable filter has to have cells, and a scalable one has to have them in every filter of its series. -/
namespace Synopsis.Presence
open Hashing Packed Randomness

namespace PartitionedBloom
variable {f g : PartitionedBloom} {data : ByteArray}

/-- Every partition has the bits that are addressed in it. -/
def Rows (f : PartitionedBloom) : Prop := ∀ cells ∈ f.partitions, Row f.partitionSize cells

theorem Rows.contains (h : f.Rows) (data : ByteArray) : ∃ member, f.contains data = .ok member :=
  ⟨_, coversEach_eq _ h 0⟩

theorem Rows.insert (h : f.Rows) (run : f.insert data = .ok g) : g.Rows := by
  rw [PartitionedBloom.insert, setEach_eq _ h] at run
  cases run
  intro cells member
  obtain ⟨⟨before, n⟩, listed, rfl⟩ := List.mem_map.mp member
  exact (h before (List.fst_mem_of_mem_zipIdx listed)).write _ _

/-- An insertion into a new filter shows that its partitions are not empty. -/
theorem rows_of_insert {m k : Nat} {hasher : Hasher} (run : (empty m k hasher).insert data = .ok g) : g.Rows := by
  rcases Nat.eq_zero_or_pos m with rfl | pos
  · cases k with
    | zero =>
      cases run
      exact List.forall_mem_nil _
    | succ k =>
      obtain ⟨_, written, -⟩ := bind_eq_ok.mp run
      obtain ⟨_, first, -⟩ := bind_eq_ok.mp written
      have blank : (Counters.zeros ((0 + (k + 1) - 1) / (k + 1)) 1).size = 0 :=
        Nat.div_eq_of_lt (show 0 + (k + 1) - 1 < k + 1 by omega)
      rw [Counters.set, blank] at first
      cases first
  · exact Rows.insert (empty_holds pos k hasher).rows run

theorem Rows.clear (h : f.Rows) : f.clear.Rows := by
  intro cells member
  obtain ⟨before, old, rfl⟩ := List.mem_map.mp member
  have row := h before old
  exact ⟨row.size, row.width, row.pos⟩

end PartitionedBloom

namespace ScalableBloom
variable {c : Config} {f g : ScalableBloom} {data : ByteArray}

/-- No filter of the series is without bits where it is tested. -/
def Roomy (f : ScalableBloom) : Prop := ∀ filter ∈ f.series, filter.Rows

theorem containsAny_of_rows {filters : List PartitionedBloom} (rows : ∀ filter ∈ filters, filter.Rows)
    (data : ByteArray) : ∃ member, containsAny data filters = .ok member := by
  induction filters with
  | nil => exact ⟨false, rfl⟩
  | cons filter rest ih =>
    obtain ⟨here, there⟩ := List.forall_mem_cons.mp rows
    obtain ⟨first, answer⟩ := here.contains data
    rw [containsAny, answer]
    cases first with
    | true => exact ⟨true, rfl⟩
    | false => exact ih there

/-- The tests of a series do not fail, so an insertion alone decides whether both do. -/
theorem Roomy.fused (h : f.Roomy) : operations.Fused f := by
  intro data
  obtain ⟨member, answer⟩ := containsAny_of_rows h data
  simp only [operations, Operations.permanent, containsThenInsert_eq answer]
  cases f.insert data with
  | ok g => exact .done answer rfl rfl
  | error failure => exact .failed rfl rfl

/-- A filter is appended only if it takes the item. -/
theorem Roomy.insert (h : f.Roomy) (run : f.insert data = .ok g) : g.Roomy := by
  have inserts := inserts_of_ok run
  generalize outcome_eq : Except.ok g = outcome at inserts
  obtain ⟨earlier, tail⟩ : (∀ filter ∈ f.earlier, filter.Rows) ∧ f.tail.Rows := by
    simpa only [Roomy, List.forall_mem_append, List.forall_mem_singleton, series] using h
  cases inserts with
  | stored _ stored =>
    cases outcome_eq
    exact List.forall_mem_append.mpr ⟨earlier, List.forall_mem_singleton.mpr (tail.insert stored)⟩
  | grown _ opened stored =>
    cases outcome_eq
    obtain ⟨rfl, -⟩ := PartitionedBloom.ofConfigWith_eq_ok opened
    have last : PartitionedBloom.Rows _ := PartitionedBloom.rows_of_insert stored
    exact List.forall_mem_append.mpr ⟨h, List.forall_mem_singleton.mpr last⟩
  | refused => cases outcome_eq

theorem Roomy.first (h : f.Roomy) : f.first.Rows := by
  refine h _ ?_
  rw [ScalableBloom.first, series]
  cases f.earlier with
  | nil => exact List.mem_singleton_self _
  | cons filter rest => exact List.mem_cons_self

theorem Roomy.step (h : f.Roomy) (request : Request) : (operations.step f request).2.Roomy := by
  refine operations.step_keeps (P := Roomy) (fun _ _ _ run h => h.insert run)
    (fun _ _ _ _ => insert_of_containsThenInsert) ?_ ?_ f request h
  · intro f data member g run h
    cases run
    exact h
  · intro f h
    exact List.forall_mem_singleton.mpr h.first.clear

theorem Roomy.withHasher (h : f.Roomy) (hasher : Hasher) : (f.withHasher hasher).Roomy := by
  intro filter listed
  have moved : (f.withHasher hasher).series = f.series.map (·.withHasher hasher) := by
    simp only [series, ScalableBloom.withHasher, List.map_append, List.map_cons, List.map_nil]
  rw [moved] at listed
  obtain ⟨before, member, rfl⟩ := List.mem_map.mp listed
  exact h before member

theorem Roomy.single {filter : PartitionedBloom} (accepted : c.link 0 = .ok filter)
    (sized : 0 < (c.single filter).size) : (c.single filter).Roomy := by
  refine List.forall_mem_singleton.mpr ?_
  have positive : 0 < filter.size := (Nat.zero_add filter.size).symm ▸ sized
  obtain ⟨rfl, -⟩ := PartitionedBloom.ofConfigWith_eq_ok accepted
  exact (PartitionedBloom.empty_holds positive _ _).rows

theorem run_fused {hasher : Hasher} {start : ScalableBloom} (made : (lifecycle c).make hasher () = .ok start)
    (sized : 0 < start.size) (actions : List (Action Request)) :
    operations.Fused ((lifecycle c).run start actions) := by
  obtain ⟨-, fresh, opened, rfl⟩ := ofConfig_eq_ok made
  have roomy := Lifecycle.run_keeps (l := lifecycle c) (P := Roomy) (fun _ request h => h.step request)
    (fun _ hasher h => h.withHasher hasher) (Roomy.single opened sized) actions
  exact roomy.fused

end ScalableBloom

namespace StableBloom
variable {σ : Type} [Source σ]

theorem size_step (f : StableBloom σ) (request : Request) :
    (operations.step f request).2.cells.size = f.cells.size := by
  have blank : ((operations.step f request).2.clearAt f.source).cells.size = (f.clearAt f.source).cells.size := by
    rw [clearAt_step]
  exact blank

theorem always_fused_of_make {make : Hasher → σ → Outcome (StableBloom σ)}
    (pos : ∀ hasher source f, make hasher source = .ok f → 0 < f.cells.size) :
    (lifecycleOf make).Always operations.Fused := by
  refine Lifecycle.always_of_invariant pos (fun f request inside => ?_) (fun f hasher inside => inside) fun f => fused
  exact (size_step f request).symm ▸ inside

theorem pos_of_make {c : Config} {hasher : Hasher} {source : σ} {f : StableBloom σ}
    (made : (lifecycle σ c).make hasher source = .ok f) : 0 < f.cells.size := by
  obtain ⟨pos, -, rfl⟩ := ofConfigWith_eq_ok made
  exact pos

theorem pos_of_make_unstable {m : Nat} {rate : Float} {hasher : Hasher} {source : σ} {f : StableBloom σ}
    (made : (unstableLifecycle σ m rate).make hasher source = .ok f) : 0 < f.cells.size := by
  obtain ⟨g, accepted, rfl⟩ := map_eq_ok.mp made
  obtain ⟨_, valid, -⟩ := bind_eq_ok.mp accepted
  obtain ⟨_, cells, -⟩ := bind_eq_ok.mp valid
  obtain ⟨rfl, -⟩ := unstable_eq_ok accepted
  exact decide_eq_true_eq.mp (require_eq_ok.mp cells)

theorem always_fused (c : Config) : (lifecycle σ c).Always operations.Fused :=
  always_fused_of_make fun _ _ _ => pos_of_make

theorem unstable_always_fused (m : Nat) (rate : Float) : (unstableLifecycle σ m rate).Always operations.Fused :=
  always_fused_of_make fun _ _ _ => pos_of_make_unstable

end StableBloom

/-- Where the item is missing the insertion follows, and without buckets both fail. -/
theorem Cuckoo.containsThenInsert_of_missing {σ : Type} [Source σ] {t : Cuckoo σ} {data : ByteArray}
    (missing : t.contains data ≠ .ok true) :
    t.containsThenInsert data = ((t.insert data).1.map fun () => false, (t.insert data).2) := by
  cases answer : t.contains data with
  | error failure =>
    cases checked : t.check with
    | error e =>
      simp only [contains, checked] at answer
      cases answer
      simp only [containsThenInsert, contains, insert, checked]
      rfl
    | ok _ =>
      simp only [contains, checked] at answer
      cases answer
  | ok member =>
    cases member with
    | true => exact absurd answer missing
    | false => simp only [containsThenInsert, answer]

/-- An insertion under a test leaves all that the insertion alone leaves, counts, collision flags and the source of
random words included, fails just where it fails and for the same reason, and otherwise answers as the test before
it, also where positions of the item coincide. So it is for every filter with cells in an array or in partitions; for
stable filters, and scalable filters whose first filter was given some bits, in every state that they can reach; and
for the inverse filter. A cuckoo filter that contains the item stays as it is, and otherwise inserts it. -/
theorem fused_insertions_are_tests_and_insertions {σ : Type} [Source σ] :
    (∀ f, Bloom.operations.Fused f) ∧
    (∀ f, PartitionedBloom.operations.Fused f) ∧
    (∀ f, CountingBloom.operations.Fused f) ∧
    (∀ f, DeletableBloom.operations.Fused f) ∧
    (∀ c, (StableBloom.lifecycle σ c).Always StableBloom.operations.Fused) ∧
    (∀ m rate, (StableBloom.unstableLifecycle σ m rate).Always StableBloom.operations.Fused) ∧
    (∀ c hasher start, (ScalableBloom.lifecycle c).make hasher () = .ok start → 0 < start.size → ∀ actions,
      ScalableBloom.operations.Fused ((ScalableBloom.lifecycle c).run start actions)) ∧
    (∀ (f : Inverse) data, f.containsThenInsert data = (f.contains data, f.insert data)) ∧
    ∀ (t : Cuckoo σ) data,
      (t.contains data = .ok true → t.containsThenInsert data = (.ok true, t)) ∧
      (t.contains data ≠ .ok true →
        t.containsThenInsert data = ((t.insert data).1.map fun () => false, (t.insert data).2)) := by
  refine ⟨Bloom.fused, PartitionedBloom.fused, CountingBloom.fused, DeletableBloom.fused, StableBloom.always_fused,
    StableBloom.unstable_always_fused, fun _ _ _ => ScalableBloom.run_fused, fun f data => rfl,
    fun t data => ⟨fun member => ?_, Cuckoo.containsThenInsert_of_missing⟩⟩
  rw [Cuckoo.containsThenInsert, member]

/-- Three regions of one bit each. -/
private def threeRegions : DeletableBloom := .empty (.split 5 2) 2 3 .leadingBytes

/-- A series that cannot go on after its first filter. -/
private def onlyOne : ScalableBloom.Config := ScalableBloom.short 5e-324

/-- Two items fill a filter of that series. -/
private def filling : List (Action Request) :=
  [.operation (.insert (Hasher.dataOf 0 1)), .withHasher .leadingBytes, .operation (.insert (Hasher.dataOf 1 1))]

/-- An item whose bits coincide gives its own region up, and a series that cannot go on refuses both insertions. -/
theorem coinciding_bits_and_refused_growth_are_fused :
    (∃ g, threeRegions.insert (Hasher.dataOf 1 0) = .ok g ∧ g.collidedRegions = 1 ∧
      threeRegions.containsThenInsert (Hasher.dataOf 1 0) = .ok (false, g)) ∧
    (∃ start, (StableBloom.lifecycle ChaCha.Stream {}).make .leadingBytes (.ofSeed 7) = .ok start ∧
      StableBloom.operations.Fused ((StableBloom.lifecycle ChaCha.Stream {}).run start filling)) ∧
    (∃ start, (StableBloom.unstableLifecycle ChaCha.Stream 9 0.1).make .leadingBytes (.ofSeed 7) = .ok start ∧
      StableBloom.operations.Fused ((StableBloom.unstableLifecycle ChaCha.Stream 9 0.1).run start filling)) ∧
    ∃ start, (ScalableBloom.lifecycle onlyOne).make .leadingBytes () = .ok start ∧ 0 < start.size ∧
      let f := (ScalableBloom.lifecycle onlyOne).run start filling
      ∃ failure, f.insert (Hasher.dataOf 0 0) = .error failure ∧
        f.containsThenInsert (Hasher.dataOf 0 0) = .error failure := by
  obtain ⟨-, -, -, deletable, stable, unstable, scalable, -⟩ :=
    fused_insertions_are_tests_and_insertions (σ := ChaCha.Stream)
  refine ⟨?_, ?_, ?_, ?_⟩
  · have evaluated : (threeRegions.insert (Hasher.dataOf 1 0)).toOption.map DeletableBloom.collidedRegions = some 1 :=
      rfl
    obtain ⟨g, inserted, collided⟩ := toOption_map_eq_some.mp evaluated
    exact ⟨g, inserted, collided, (deletable threeRegions _).eq_ok rfl inserted⟩
  · obtain ⟨start, made⟩ : ∃ start,
      (StableBloom.lifecycle ChaCha.Stream {}).make .leadingBytes (.ofSeed 7) = .ok start := ⟨_, rfl⟩
    exact ⟨start, made, stable _ _ _ start made filling⟩
  · obtain ⟨start, made⟩ : ∃ start,
      (StableBloom.unstableLifecycle ChaCha.Stream 9 0.1).make .leadingBytes (.ofSeed 7) = .ok start := ⟨_, rfl⟩
    exact ⟨start, made, unstable _ _ _ _ start made filling⟩
  · have evaluated : (ScalableBloom.ofConfig onlyOne).toOption.map (fun start =>
        (decide (0 < start.size),
          (((ScalableBloom.lifecycle onlyOne).run start filling).insert (Hasher.dataOf 0 0)).isOk)) =
        some (true, false) := by
      decide +kernel
    obtain ⟨start, made, measured⟩ := toOption_map_eq_some.mp evaluated
    obtain ⟨positive, refused⟩ := Prod.mk.inj measured
    have sized : 0 < start.size := of_decide_eq_true positive
    refine ⟨start, made, sized, ?_⟩
    cases outcome : ((ScalableBloom.lifecycle onlyOne).run start filling).insert (Hasher.dataOf 0 0) with
    | ok g =>
      rw [outcome] at refused
      cases refused
    | error failure =>
      exact ⟨failure, outcome, (scalable onlyOne .leadingBytes start made sized filling _).eq_error outcome⟩

end Synopsis.Presence
