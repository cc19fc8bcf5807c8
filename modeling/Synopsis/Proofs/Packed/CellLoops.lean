import Synopsis.Proofs.Packed.CellUpdates

/-! Loops that touch the cells of an item. A loop that reads each cell before it touches it finds what a test
of all the cells beforehand finds, also where positions repeat, and leaves the same cells. -/
namespace Synopsis.Packed.Counters

section Loops
variable {σ : Type}

/-- Touching a cell succeeds, keeps what is good, makes the cell non-zero and no other. -/
def Touches (cells : σ → Counters) (touch : σ → Nat → Outcome σ) (Good : σ → Prop) : Prop :=
  ∀ s i, Good s → i < (cells s).size → ∃ t, touch s i = .ok t ∧ Good t ∧
    (cells t).size = (cells s).size ∧ (cells t).support = insert i (cells s).support

/-- Touches a cell and remembers in the flag whether all so far were above zero before. -/
def seeing (cells : σ → Counters) (touch : σ → Nat → Outcome σ) (state : Bool × σ) (i : Nat) :
    Outcome (Bool × σ) := do
  let seen ← (cells state.2).get i
  return (state.1 && seen ≠ 0, ← touch state.2 i)

variable {cells : σ → Counters} {touch : σ → Nat → Outcome σ} {Good : σ → Prop} {s : σ} {positions : List Nat}

/-- The state after touching the positions `done` one by one. -/
structure Touched (cells : σ → Counters) (Good : σ → Prop) (s : σ) (done : List Nat) (t : σ) : Prop where
  good : Good t
  size : (cells t).size = (cells s).size
  support : (cells t).support = (cells s).support ∪ done.toFinset

theorem Touched.nil (good : Good s) : Touched cells Good s [] s := ⟨good, rfl, by simp⟩

theorem Touched.step {done : List Nat} {t : σ} (h : Touched cells Good s done t) (touches : Touches cells touch Good)
    {i : Nat} (inside : i < (cells s).size) :
    ∃ u, touch t i = .ok u ∧ Touched cells Good s (done ++ [i]) u := by
  obtain ⟨u, run, good, size, support⟩ := touches t i h.good (h.size.symm ▸ inside)
  refine ⟨u, run, good, size.trans h.size, ?_⟩
  ext j
  simp [support, h.support, or_comm]

theorem Touches.all (h : Touches cells touch Good) (good : Good s) (inside : ∀ i ∈ positions, i < (cells s).size) :
    ∃ t, positions.foldlM touch s = .ok t ∧ Touched cells Good s positions t :=
  foldlM_keeps (P := Touched cells Good s) (.nil good) fun _ i _ listed touched => touched.step h (inside i listed)

/-- A touch past the end fails, and one that succeeds empties no cell and fills no other. -/
structure Grows (cells : σ → Counters) (touch : σ → Nat → Outcome σ) : Prop where
  past {s : σ} {i : Nat} (outside : ¬ i < (cells s).size) : touch s i = .error (.outOfBounds i (cells s).size)
  size {s t : σ} {i : Nat} (run : touch s i = .ok t) : (cells t).size = (cells s).size
  kept {s t : σ} {i : Nat} (run : touch s i = .ok t) : (cells s).support ⊆ (cells t).support
  only {s t : σ} {i : Nat} (run : touch s i = .ok t) : (cells t).support ⊆ insert i (cells s).support

/-- A position that repeats is not seen as it was before the loop, but where that makes a difference the flag is
lowered already. -/
theorem Grows.seeing_eq (grows : Grows cells touch) (inside : ∀ i ∈ positions, i < (cells s).size) (before : Bool) :
    positions.foldlM (seeing cells touch) (before, s) =
      (positions.foldlM touch s).map fun t => (before && decide (positions.toFinset ⊆ (cells s).support), t) := by
  induction positions generalizing s before with
  | nil => simp [Except.map, pure, Except.pure]
  | cons i rest ih =>
    obtain ⟨here, there⟩ := List.forall_mem_cons.mp inside
    simp only [List.foldlM_cons, seeing, get_of_lt here]
    change ((touch s i >>= _) >>= _) = _
    cases touched : touch s i with
    | error failure => rfl
    | ok t =>
      change rest.foldlM (seeing cells touch) (before && decide ((cells s).read i ≠ 0), t) = _
      rw [ih (fun j listed => (grows.size touched).symm ▸ there j listed)]
      refine congrArg (fun flag => (rest.foldlM touch t).map fun u => (flag, u)) ?_
      simp only [List.toFinset_cons, Finset.insert_subset_iff, Bool.decide_and, Bool.and_assoc]
      by_cases seen : i ∈ (cells s).support
      · have same : (cells t).support = (cells s).support :=
          (Finset.insert_eq_of_mem seen ▸ grows.only touched).antisymm (grows.kept touched)
        simp [(mem_support.mp seen).2, same, seen]
      · have zero : (cells s).read i = 0 := by simpa [here] using seen
        simp [zero, seen]

/-- Reading in the loop is reading first and then touching, also where there are no cells at all. -/
theorem Grows.fusion (grows : Grows cells touch)
    (places : (cells s).size = 0 ∨ ∀ i ∈ positions, i < (cells s).size) {β : Type} (build : σ → β) :
    Fusion ((cells s).covers positions) (do
      let t ← positions.foldlM touch s
      return build t) (do
      let state ← positions.foldlM (seeing cells touch) (true, s)
      return (state.1, build state.2)) := by
  by_cases inside : ∀ i ∈ positions, i < (cells s).size
  · rw [grows.seeing_eq inside, covers_eq_support inside]
    cases positions.foldlM touch s with
    | error failure => exact .failed rfl rfl
    | ok t => exact .done rfl rfl rfl
  · have none : (cells s).size = 0 := places.resolve_right inside
    cases positions with
    | nil => exact absurd (List.forall_mem_nil _) inside
    | cons i rest =>
      have outside : ¬ i < (cells s).size := none ▸ Nat.not_lt_zero i
      have refused : (i :: rest).foldlM touch s = .error (.outOfBounds i (cells s).size) := by
        rw [List.foldlM_cons, grows.past outside]
        rfl
      rw [refused]
      refine .failed rfl ?_
      simp only [List.foldlM_cons, seeing, get, if_neg outside]
      rfl

end Loops

section Touching
variable {size width value : Nat}

/-- A value above zero that is written, as far as a cell can hold it, is above zero again. -/
theorem grows_of_write {write : Counters → Nat → Outcome Counters} {next : Counters → Nat → Nat}
    (inside : ∀ {c i}, i < c.size → write c i = .ok (c.write i (min (next c i) c.max)))
    (past : ∀ {c i}, ¬ i < c.size → write c i = .error (.outOfBounds i c.size))
    (pos : ∀ c i, 0 < next c i) : Grows id write := by
  have written {c d : Counters} {i : Nat} (run : write c i = .ok d) :
      i < c.size ∧ d = c.write i (min (next c i) c.max) := by
    by_cases here : i < c.size
    · exact ⟨here, (Except.ok.inj ((inside here).symm.trans run)).symm⟩
    · cases (past here).symm.trans run
  constructor
  case past => exact past
  case size =>
    intro c d i run
    obtain ⟨-, rfl⟩ := written run
    rfl
  case kept =>
    intro c d i run j there
    obtain ⟨here, rfl⟩ := written run
    obtain ⟨small, nonzero⟩ := mem_support.mp there
    have top : 0 < c.max := (Nat.pos_of_ne_zero nonzero).trans_le (c.read_le_max j)
    rw [id, support_write here (min_le_right ..) (lt_min (pos c i) top)]
    exact Finset.mem_insert_of_mem there
  case only =>
    intro c d i run j there
    obtain ⟨here, rfl⟩ := written run
    obtain ⟨small, nonzero⟩ := mem_support.mp there
    by_cases same : i = j
    · exact same ▸ Finset.mem_insert_self ..
    · rw [id, read_write_of_ne _ _ same] at nonzero
      exact Finset.mem_insert_of_mem (mem_support.mpr ⟨small, nonzero⟩)

theorem set_grows (pos : 0 < value) : Grows id fun c i => c.set i value :=
  grows_of_write (fun inside => set_of_lt inside value) (fun past => if_neg past) fun _ _ => pos

theorem count_grows : Grows id fun c i => c.adjust i 1 :=
  grows_of_write (fun inside => adjust_of_lt inside 1) (fun past => if_neg past) fun _ _ => by omega

theorem set_touches (wide : 0 < width) (pos : 0 < value) :
    Touches id (fun c i => c.set i value) (Sound size width) := by
  intro c i sound inside
  have top := sound.max_pos wide
  exact ⟨_, set_of_lt inside value, sound.write _ _, rfl,
    support_write inside (min_le_right ..) (lt_min pos top)⟩

theorem count_touches (wide : 0 < width) : Touches id (fun c i => c.adjust i 1) (Sound size width) := by
  intro c i sound inside
  have top := sound.max_pos wide
  exact ⟨_, adjust_of_lt inside 1, sound.write _ _, rfl,
    support_write inside (min_le_right ..) (lt_min (by omega) top)⟩

end Touching
end Synopsis.Packed.Counters
