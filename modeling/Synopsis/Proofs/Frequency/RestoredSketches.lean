import Synopsis.Proofs.Frequency.CountMinRuns
import Synopsis.Proofs.Frequency.CountMinShapes

/-! What restored Count-Min sketches are good for. A restored matrix has the stated shape, but the shape
may have no rows or no columns. -/
namespace Synopsis.Frequency.CountMin
open Numeric Hashing

variable {s : CountMin}

/-- Rectangular, and of the given measures. -/
structure Measures (width depth : Nat) (s : CountMin) : Prop where
  rectangular : s.Rectangular
  width : s.width = width
  depth : s.depth = depth

section Steps
variable {width depth : Nat}

theorem Measures.check (h : Measures width depth s) (room : 0 < width ∨ depth = 0) :
    s.check = .ok () :=
  check_eq_ok_iff.mpr (h.width.symm ▸ h.depth.symm ▸ room)

theorem Measures.addCount (h : Measures width depth s) (room : 0 < width ∨ depth = 0)
    (data : ByteArray) (n : UInt64) : ∃ t, s.addCount data n = .ok t ∧ Measures width depth t := by
  have run := addCount_of_check (h.check room) data n
  exact ⟨_, run, h.rectangular.addCount run, h.width, (length_addToRows ..).trans h.depth⟩

theorem Measures.step (h : Measures width depth s) (room : 0 < width ∨ depth = 0)
    (operation : Operation) : ∃ t, s.step operation = .ok t ∧ Measures width depth t := by
  cases operation with
  | add data => exact h.addCount room data 1
  | addCount data n => exact h.addCount room data n
  | clear =>
    exact ⟨_, rfl, h.rectangular.clear, h.width, (List.length_map _).trans h.depth⟩

theorem Measures.run (h : Measures width depth s) (room : 0 < width ∨ depth = 0)
    (operations : List Operation) :
    ∃ t, CountMin.run s operations = .ok t ∧ Measures width depth t :=
  foldlM_keeps (P := fun _ => Measures width depth) h fun _ operation _ _ measured =>
    measured.step room operation

end Steps

theorem countersOf_addToRows {p : Probe} {width i : Nat} {rows : List (Array UInt64)} (n : UInt64)
    (inside : 0 < width) (all : ∀ row ∈ rows, row.size = width) :
    countersOf p width i (addToRows p width n i rows) =
      (countersOf p width i rows).map (saturatingAdd · n) := by
  induction rows generalizing i with
  | nil => rfl
  | cons row rest ih =>
    obtain ⟨first, others⟩ := List.forall_mem_cons.mp all
    have place : p.index i width < row.size := first.symm ▸ p.index_lt i inside
    simp only [addToRows, countersOf, List.map_cons, ih others]
    rw [Array.getElem?_modify, if_pos rfl, Array.getElem?_eq_getElem place]
    rfl

theorem length_countersOf (p : Probe) (width i : Nat) (rows : List (Array UInt64)) :
    (countersOf p width i rows).length = rows.length := by
  induction rows generalizing i with
  | nil => rfl
  | cons row rest ih => simp only [countersOf, List.length_cons, ih]

theorem le_saturatingAdd (a n : UInt64) : n ≤ saturatingAdd a n := by
  rw [UInt64.le_iff_toNat_le, toNat_saturatingAdd]
  have below := n.toNat_lt_size
  exact le_min (Nat.le_add_left ..) (Nat.le_sub_one_of_lt below)

/-- What a sketch does for an item: each row has the counter that the item asks for, the item has an
estimate, and after copies of it were added the estimate is not below their number. -/
structure Serves (s : CountMin) (data : ByteArray) : Prop where
  inside : ∀ i row, s.rows[i]? = some row → (s.probe data).index i s.width < row.size
  counted : ∃ c, s.count data = .ok c
  added : ∀ n, ∃ t c, s.addCount data n = .ok t ∧ t.count data = .ok c ∧ n ≤ c

/-- No operations fail, and none makes the sketch fail an item. -/
def Usable (s : CountMin) : Prop :=
  ∀ operations, ∃ t, run s operations = .ok t ∧ ∀ data, t.Serves data

theorem Measures.serves {width depth : Nat} (h : Measures width depth s) (columns : 0 < width)
    (rows : 0 < depth) (data : ByteArray) : s.Serves data := by
  have checked := h.check (.inl columns)
  have places : 0 < s.width := h.width.symm ▸ columns
  refine ⟨fun i row found => ?_, ⟨_, count_of_check checked data⟩, fun n => ?_⟩
  · rw [h.rectangular row (List.mem_of_getElem? found)]
    exact Probe.index_lt _ i places
  · obtain ⟨t, run, measured⟩ := h.addCount (.inl columns) data n
    refine ⟨t, _, run, count_of_check (measured.check (.inl columns)) data, ?_⟩
    have counters : countersOf (t.probe data) t.width 0 t.rows =
        (countersOf (s.probe data) s.width 0 s.rows).map (saturatingAdd · n) := by
      obtain rfl := addCount_eq_ok run
      exact countersOf_addToRows n places h.rectangular
    have some : (countersOf (t.probe data) t.width 0 t.rows) ≠ [] := by
      rw [← List.length_pos_iff, length_countersOf]
      exact rows.trans_eq measured.depth.symm
    obtain ⟨least, found⟩ := Option.isSome_iff_exists.mp (List.isSome_min?_of_ne_nil some)
    rw [found, Option.getD_some, List.le_min?_iff found, counters]
    intro c member
    obtain ⟨before, -, rfl⟩ := List.mem_map.mp member
    exact le_saturatingAdd before n

theorem Measures.usable {width depth : Nat} (h : Measures width depth s) (columns : 0 < width)
    (rows : 0 < depth) : s.Usable := by
  intro operations
  obtain ⟨t, run, measured⟩ := h.run (.inl columns) operations
  exact ⟨t, run, measured.serves columns rows⟩

theorem ofBytes_eq_ok {bytes : List UInt8} (run : ofBytes bytes = .ok s) :
    ∃ snapshot, ofSnapshot snapshot = .ok s := by
  unfold ofBytes at run
  split at run
  next snapshot _ _ => exact ⟨snapshot, run⟩
  next => cases run

/-- A restored sketch is usable if it has rows and columns, and only then. With rows but no columns every
addition and every estimate fails; without rows every estimate stays zero. -/
theorem restored_usable_iff
    (restored : (∃ snapshot, ofSnapshot snapshot = .ok s) ∨ ∃ bytes, ofBytes bytes = .ok s) :
    (s.Usable ↔ 0 < s.width ∧ 0 < s.depth) ∧
      (s.width = 0 → 0 < s.depth → ∀ data,
        (∀ n, s.addCount data n = .error .zeroModulus) ∧ s.count data = .error .zeroModulus) ∧
      (s.depth = 0 → ∀ operations, ∃ t, run s operations = .ok t ∧ ∀ data, t.count data = .ok 0) := by
  obtain ⟨snapshot, accepted⟩ : ∃ snapshot, ofSnapshot snapshot = .ok s :=
    restored.elim id fun ⟨_, run⟩ => ofBytes_eq_ok run
  have measured : Measures s.width s.depth s := ⟨rectangular_ofSnapshot accepted, rfl, rfl⟩
  have rowless (none : s.depth = 0) (operations : List Operation) :
      ∃ t, run s operations = .ok t ∧ ∀ data, t.count data = .ok 0 := by
    obtain ⟨t, run, after⟩ := measured.run (.inr none) operations
    exact ⟨t, run, count_of_no_rows (after.depth.trans none)⟩
  refine ⟨⟨fun usable => ?_, fun ⟨columns, rows⟩ => measured.usable columns rows⟩,
    fun none rows => fails_of_no_columns none rows, rowless⟩
  obtain ⟨_, same, serves⟩ := usable []
  cases same
  have rows : 0 < s.depth := by
    by_contra none
    -- without rows nothing fails, so it is the estimate of an added copy that gives it away
    obtain ⟨t, c, run, estimate, least⟩ := (serves .empty).added 1
    obtain ⟨_, again, zero⟩ := rowless (Nat.eq_zero_of_not_pos none) [.addCount .empty 1]
    cases (run.symm.trans ((foldlM_singleton ..).symm.trans again))
    cases (estimate.symm.trans (zero .empty))
    exact absurd least (by decide)
  refine ⟨Nat.pos_of_ne_zero fun none => ?_, rows⟩
  obtain ⟨c, estimate⟩ := (serves .empty).counted
  exact nomatch estimate.symm.trans (fails_of_no_columns none rows .empty).2

/-- A snapshot that says nothing but the shape of its matrix. -/
private def plain (width depth : Nat) (matrix : List (List UInt64)) : Snapshot :=
  ⟨width, depth, 0, 0, 0, "murmur-fnv", matrix⟩

theorem full_row_is_usable :
    ∃ s, ofSnapshot (plain 2 1 [[18446744073709551615, 4]]) = .ok s ∧ s.Usable ∧
      ∃ t c, s.addCount .empty 7 = .ok t ∧ t.count .empty = .ok c ∧ 7 ≤ c := by
  have accepted : ofSnapshot (plain 2 1 [[18446744073709551615, 4]]) =
      .ok ⟨2, [#[18446744073709551615, 4]], 0, 0, 0, .murmurFnv⟩ := rfl
  obtain ⟨usable, -, -⟩ := restored_usable_iff (.inl ⟨_, accepted⟩)
  have fit := usable.mpr ⟨by decide, by decide⟩
  obtain ⟨_, same, serves⟩ := fit []
  cases same
  exact ⟨_, accepted, fit, (serves .empty).added 7⟩

/-- One row without counters is accepted, and so is a matrix without rows. -/
theorem hollow_snapshots_are_accepted :
    (∃ s, ofSnapshot (plain 0 1 [[]]) = .ok s ∧ ¬ s.Usable ∧
      s.addCount .empty 1 = .error .zeroModulus ∧ s.count .empty = .error .zeroModulus) ∧
    ∃ s, ofSnapshot (plain 1 0 []) = .ok s ∧ ¬ s.Usable ∧
      ∃ t, s.addCount .empty 5 = .ok t ∧ t.count .empty = .ok 0 := by
  have columnless : ¬ CountMin.Usable ⟨0, [#[]], 0, 0, 0, .murmurFnv⟩ := fun usable => by
    obtain ⟨_, same, serves⟩ := usable []
    cases same
    exact nomatch (serves .empty).counted
  have rowless : ¬ CountMin.Usable ⟨1, [], 0, 0, 0, .murmurFnv⟩ := fun usable => by
    obtain ⟨_, same, serves⟩ := usable []
    cases same
    obtain ⟨t, c, run, estimate, least⟩ := (serves .empty).added 5
    cases run
    cases estimate
    exact absurd least (by decide)
  exact ⟨⟨_, rfl, columnless, rfl, rfl⟩, _, rfl, rowless, _, rfl, rfl⟩

end Synopsis.Frequency.CountMin
