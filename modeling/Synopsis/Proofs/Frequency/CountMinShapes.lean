import Synopsis.Frequency.Snapshot
import Mathlib

/-! The shape of Count-Min sketches: what each operation does to the rows, and that every sketch that can
be made has as many counters in each row as its width says. -/
namespace Synopsis.Frequency.CountMin
open Hashing Numeric

variable {s t other : CountMin} {data : ByteArray} {n : UInt64}

theorem addCount_eq_ok (run : s.addCount data n = .ok t) :
    t = { s with rows := addToRows (s.probe data) s.width n 0 s.rows, total := saturatingAdd s.total n } := by
  unfold addCount at run
  cases checked : s.check with
  | error failure => rw [checked] at run; cases run
  | ok => rw [checked] at run; exact (Except.ok.inj run).symm

theorem merge_eq_ok_iff :
    s.merge other = .ok t ↔ s.depth = other.depth ∧ s.width = other.width ∧
      t = { s with
        rows := s.rows.zipWith (Array.zipWith saturatingAdd) other.rows
        total := saturatingAdd s.total other.total } := by
  unfold merge
  split
  next depths => exact ⟨fun run => (nomatch run), fun ⟨same, _⟩ => absurd same depths⟩
  next depths =>
    split
    next widths => exact ⟨fun run => (nomatch run), fun ⟨_, same, _⟩ => absurd same widths⟩
    next widths =>
      exact ⟨fun run => ⟨not_not.mp depths, not_not.mp widths, (Except.ok.inj run).symm⟩,
        fun ⟨_, _, same⟩ => same ▸ rfl⟩

theorem merge_accepted_iff :
    (∃ t, s.merge other = .ok t) ↔ s.depth = other.depth ∧ s.width = other.width := by
  simp only [merge_eq_ok_iff, exists_and_left, exists_eq, and_true]

theorem depth_merge (run : s.merge other = .ok t) : t.depth = s.depth := by
  obtain ⟨depths, -, rfl⟩ := merge_eq_ok_iff.mp run
  exact List.length_zipWith.trans (Nat.min_eq_left depths.le)

/-- A snapshot is accepted if it names a built-in hasher and its matrix has the stated shape; of the
shape itself nothing is asked. -/
theorem ofSnapshot_eq_ok_iff {snapshot : Snapshot} :
    ofSnapshot snapshot = .ok s ↔
      ∃ hasher, Hasher.ofName? snapshot.hasherName = some hasher ∧
        snapshot.matrix.length = snapshot.depth ∧
        (∀ row ∈ snapshot.matrix, row.length = snapshot.width) ∧
        s = ⟨snapshot.width, snapshot.matrix.map List.toArray, snapshot.epsilon, snapshot.delta,
          snapshot.count, hasher⟩ := by
  unfold ofSnapshot
  cases named : Hasher.ofName? snapshot.hasherName with
  | none => exact ⟨fun run => (nomatch run), fun ⟨_, known, _⟩ => (nomatch known)⟩
  | some hasher =>
    by_cases depths : snapshot.matrix.length = snapshot.depth
    · cases odd : snapshot.matrix.find? (·.length ≠ snapshot.width) with
      | some row =>
        have member := List.mem_of_find?_eq_some odd
        have wrong := List.find?_some odd
        simp only [depths, ne_eq, not_true_eq_false, if_false]
        refine ⟨fun run => (nomatch run), fun ⟨_, _, _, widths, _⟩ => ?_⟩
        exact absurd (widths row member) (by simpa using wrong)
      | none =>
        have widths : ∀ row ∈ snapshot.matrix, row.length = snapshot.width := fun row member => by
          simpa using List.find?_eq_none.mp odd row member
        simp only [depths, ne_eq, not_true_eq_false, if_false]
        constructor
        · intro run
          exact ⟨hasher, rfl, trivial, widths, (Except.ok.inj run).symm⟩
        · rintro ⟨_, same, -, -, rfl⟩
          cases same
          rfl
    · simp only [ne_eq, depths, not_false_eq_true, if_true]
      exact ⟨fun run => (nomatch run), fun ⟨_, _, same, _⟩ => same.elim⟩

/-- Every row has as many counters as the width says. -/
def Rectangular (s : CountMin) : Prop := ∀ row ∈ s.rows, row.size = s.width

theorem length_addToRows (p : Probe) (width : Nat) (n : UInt64) (i : Nat) (rows : List (Array UInt64)) :
    (addToRows p width n i rows).length = rows.length := by
  induction rows generalizing i with
  | nil => rfl
  | cons row rest ih => simp only [addToRows, List.length_cons, ih]

theorem size_of_mem_addToRows {p : Probe} {width size i : Nat} {rows : List (Array UInt64)}
    (all : ∀ row ∈ rows, row.size = size) : ∀ row ∈ addToRows p width n i rows, row.size = size := by
  induction rows generalizing i with
  | nil => exact all
  | cons row rest ih =>
    obtain ⟨first, others⟩ := List.forall_mem_cons.mp all
    exact List.forall_mem_cons.mpr ⟨Array.size_modify.trans first, ih others⟩

theorem empty_rectangular (width depth : Nat) (epsilon delta : UInt64) (hasher : Hasher) :
    (empty width depth epsilon delta hasher).Rectangular := by
  intro row member
  rw [List.eq_of_mem_replicate member]
  exact Array.size_replicate

theorem Rectangular.addCount (h : s.Rectangular) (run : s.addCount data n = .ok t) :
    t.Rectangular := by
  rw [addCount_eq_ok run]
  exact size_of_mem_addToRows h

theorem Rectangular.merge (h : s.Rectangular) (h' : other.Rectangular)
    (run : s.merge other = .ok t) : t.Rectangular := by
  obtain ⟨-, widths, rfl⟩ := merge_eq_ok_iff.mp run
  intro row member
  rw [← List.map_uncurry_zip_eq_zipWith] at member
  obtain ⟨⟨mine, theirs⟩, pair, rfl⟩ := List.mem_map.mp member
  obtain ⟨here, there⟩ := List.of_mem_zip pair
  have same : mine.size = theirs.size := (h mine here).trans (widths.trans (h' theirs there).symm)
  exact Array.size_zipWith.trans ((Nat.min_eq_left same.le).trans (h mine here))

theorem Rectangular.clear (h : s.Rectangular) : s.clear.Rectangular := by
  intro row member
  obtain ⟨old, kept, rfl⟩ := List.mem_map.mp member
  exact Array.size_replicate.trans (h old kept)

theorem rectangular_ofSnapshot {snapshot : Snapshot} (run : ofSnapshot snapshot = .ok s) :
    s.Rectangular := by
  obtain ⟨_, -, -, widths, rfl⟩ := ofSnapshot_eq_ok_iff.mp run
  intro row member
  obtain ⟨counters, kept, rfl⟩ := List.mem_map.mp member
  exact widths counters kept

/-- The sketches that can be made: new and restored ones, and what operations make of them. -/
inductive Reachable : CountMin → Prop
  | empty {width depth : Nat} (epsilon delta : UInt64) (hasher : Hasher)
      (wide : width < UInt64.size) (deep : depth < UInt64.size) :
      Reachable (empty width depth epsilon delta hasher)
  | restored {snapshot : Snapshot} {s : CountMin} (wide : snapshot.width < UInt64.size)
      (deep : snapshot.depth < UInt64.size) (run : ofSnapshot snapshot = .ok s) : Reachable s
  | add {s t : CountMin} {data : ByteArray} (reached : Reachable s) (run : s.add data = .ok t) :
      Reachable t
  | addCount {s t : CountMin} {data : ByteArray} {n : UInt64} (reached : Reachable s)
      (run : s.addCount data n = .ok t) : Reachable t
  | merge {s other t : CountMin} (reached : Reachable s) (reached' : Reachable other)
      (run : s.merge other = .ok t) : Reachable t
  | clear {s : CountMin} (reached : Reachable s) : Reachable s.clear
  | withHasher {s : CountMin} (hasher : Hasher) (reached : Reachable s) :
      Reachable (s.withHasher hasher)

theorem Reachable.ofConfig {config : Config} (run : ofConfig config = .ok s) : Reachable s := by
  unfold CountMin.ofConfig at run
  cases accepted : config.validate with
  | error failure => rw [accepted] at run; cases run
  | ok =>
    rw [accepted] at run
    cases run
    exact .empty _ _ _ (truncate_lt _) (truncate_lt _)

/-- A rectangular sketch whose width and depth are 64-bit counts. -/
structure Storable (s : CountMin) : Prop where
  width_lt : s.width < UInt64.size
  depth_lt : s.depth < UInt64.size
  rectangular : s.Rectangular

theorem Storable.addCount (h : s.Storable) (run : s.addCount data n = .ok t) : t.Storable := by
  have rectangular := h.rectangular.addCount run
  obtain rfl := addCount_eq_ok run
  exact ⟨h.width_lt, (length_addToRows ..).trans_lt h.depth_lt, rectangular⟩

theorem Storable.merge (h : s.Storable) (h' : other.Rectangular) (run : s.merge other = .ok t) :
    t.Storable := by
  have rectangular := h.rectangular.merge h' run
  have depth := depth_merge run
  obtain ⟨-, -, rfl⟩ := merge_eq_ok_iff.mp run
  exact ⟨h.width_lt, depth.trans_lt h.depth_lt, rectangular⟩

theorem Reachable.storable (h : Reachable s) : s.Storable := by
  induction h with
  | empty epsilon delta hasher wide deep =>
    exact ⟨wide, List.length_replicate.trans_lt deep, empty_rectangular _ _ _ _ _⟩
  | restored wide deep run =>
    have rectangular := rectangular_ofSnapshot run
    obtain ⟨_, -, depths, -, rfl⟩ := ofSnapshot_eq_ok_iff.mp run
    exact ⟨wide, (List.length_map _).trans_lt (depths ▸ deep), rectangular⟩
  | add _ run ih => exact ih.addCount run
  | addCount _ run ih => exact ih.addCount run
  | merge _ _ run ih ih' => exact ih.merge ih'.rectangular run
  | clear _ ih => exact ⟨ih.width_lt, (List.length_map _).trans_lt ih.depth_lt, ih.rectangular.clear⟩
  | withHasher _ _ ih => exact ⟨ih.width_lt, ih.depth_lt, ih.rectangular⟩

end Synopsis.Frequency.CountMin
