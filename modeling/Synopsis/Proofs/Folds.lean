import Synopsis.Failure
import Mathlib

/-! Operations that can fail, and folds of them. -/
namespace Synopsis
variable {α σ : Type} {f : σ → α → Outcome σ} {s t : σ} {xs : List α}

theorem require_eq_ok {condition : Bool} {fault : ConfigFault} {done : Unit} :
    require condition fault = .ok done ↔ condition = true := by
  cases condition with
  | false => simp [require]
  | true => simp [require]

theorem bind_eq_ok {outcome : Outcome α} {f : α → Outcome σ} :
    outcome >>= f = .ok s ↔ ∃ a, outcome = .ok a ∧ f a = .ok s := by
  constructor
  · intro h
    cases outcome with
    | error _ => cases h
    | ok a => exact ⟨a, rfl, h⟩
  · rintro ⟨a, rfl, h⟩
    exact h

theorem map_eq_ok {outcome : Outcome α} {f : α → σ} :
    outcome.map f = .ok s ↔ ∃ a, outcome = .ok a ∧ f a = s := by
  cases outcome with
  | ok _ => simp [Except.map]
  | error _ => simp [Except.map]

/-- What a success is measured by tells of the success. -/
theorem toOption_map_eq_some {outcome : Outcome α} {f : α → σ} :
    outcome.toOption.map f = some s ↔ ∃ a, outcome = .ok a ∧ f a = s := by
  cases outcome with
  | ok _ => simp [Except.toOption]
  | error _ => simp [Except.toOption]

theorem map_eq_error {outcome : Outcome α} {f : α → σ} {failure : Failure} :
    outcome.map f = .error failure ↔ outcome = .error failure := by
  cases outcome with
  | ok _ => simp only [Except.map, reduceCtorEq]
  | error _ => simp only [Except.map, Except.error.injEq]

theorem foldlM_append_of_ok (h : xs.foldlM f s = .ok t) (ys : List α) :
    (xs ++ ys).foldlM f s = ys.foldlM f t := by
  rw [List.foldlM_append, h]
  rfl

theorem foldlM_singleton (f : σ → α → Outcome σ) (s : σ) (x : α) : [x].foldlM f s = f s x := by
  rw [List.foldlM_cons]
  exact bind_pure (f s x)

theorem foldlM_concat_of_ok (h : xs.foldlM f s = .ok t) (x : α) : (xs ++ [x]).foldlM f s = f t x :=
  (foldlM_append_of_ok h [x]).trans (foldlM_singleton f t x)

/-- A fold that succeeds at every element keeps what each step keeps of the elements already done. -/
theorem foldlM_keeps {P : List α → σ → Prop} (start : P [] s)
    (next : ∀ done x t, x ∈ xs → P done t → ∃ u, f t x = .ok u ∧ P (done ++ [x]) u) :
    ∃ t, xs.foldlM f s = .ok t ∧ P xs t := by
  induction xs using List.reverseRecOn with
  | nil => exact ⟨s, rfl, start⟩
  | append_singleton xs x ih =>
    obtain ⟨t, run, kept⟩ := ih fun done y u member =>
      next done y u (List.mem_append_left _ member)
    obtain ⟨u, last, final⟩ := next xs x t (by simp) kept
    exact ⟨u, (foldlM_concat_of_ok run x).trans last, final⟩

/-- A fold does not fail where no step of it does. -/
theorem foldlM_total (P : σ → Prop) (start : P s)
    (next : ∀ t x, x ∈ xs → P t → ∃ u, f t x = .ok u ∧ P u) : ∃ t, xs.foldlM f s = .ok t := by
  obtain ⟨t, run, -⟩ := foldlM_keeps (P := fun _ => P) start fun _ x t listed kept => next t x listed kept
  exact ⟨t, run⟩

/-- What every step that succeeds keeps, the whole fold does. -/
theorem foldlM_invariant {P : σ → Prop} (next : ∀ s x t, f s x = .ok t → P s → P t) (start : P s)
    (run : xs.foldlM f s = .ok t) : P t := by
  induction xs generalizing s with
  | nil =>
    cases run
    exact start
  | cons x xs ih =>
    rw [List.foldlM_cons] at run
    obtain ⟨u, first, rest⟩ := bind_eq_ok.mp run
    exact ih (next s x u first start) rest

/-- What every step that succeeds leaves alone, the whole fold does. -/
theorem foldlM_kept {β : Type} {v : σ → β} (next : ∀ s x t, f s x = .ok t → v t = v s)
    (run : xs.foldlM f s = .ok t) : v t = v s :=
  foldlM_invariant (P := fun t => v t = v s) (fun u x t step same => (next u x t step).trans same) rfl run

/-- Applies changes in order and tells which failed. A failed change leaves the state as it was. -/
def attempt (f : σ → α → Outcome σ) : σ → List α → List (Outcome Unit) × σ
  | s, [] => ([], s)
  | s, x :: rest =>
    let settled : Outcome Unit × σ :=
      match f s x with
      | .ok t => (.ok (), t)
      | .error failure => (.error failure, s)
    let (answers, t) := attempt f settled.2 rest
    (settled.1 :: answers, t)

/-- Both outcomes fail for one reason, or both have values that are related. -/
inductive Parallel {τ : Type} (R : σ → τ → Prop) : Outcome σ → Outcome τ → Prop
  | ok {s : σ} {t : τ} (related : R s t) : Parallel R (.ok s) (.ok t)
  | error (failure : Failure) : Parallel R (.error failure) (.error failure)

/-- Changes with parallel outcomes have parallel runs. -/
theorem attempt_parallel {τ : Type} {g : τ → α → Outcome τ} {R : σ → τ → Prop}
    (step : ∀ s t x, R s t → Parallel R (f s x) (g t x)) {s : σ} {t : τ} (start : R s t) (changes : List α) :
    (attempt f s changes).1 = (attempt g t changes).1 ∧ R (attempt f s changes).2 (attempt g t changes).2 := by
  induction changes generalizing s t with
  | nil => exact ⟨rfl, start⟩
  | cons x rest ih =>
    have next := step s t x start
    simp only [attempt]
    generalize f s x = left, g t x = right at next
    cases next with
    | ok related =>
      obtain ⟨answers, final⟩ := ih related
      exact ⟨congrArg _ answers, final⟩
    | error failure =>
      obtain ⟨answers, final⟩ := ih start
      exact ⟨congrArg _ answers, final⟩

/-- An operation that tells the answer of a test and does what another operation does. Where that one fails it fails
alike, and otherwise the test does not fail. -/
inductive Fusion : Outcome α → Outcome σ → Outcome (α × σ) → Prop
  | done {answer : α} {after : σ} {test : Outcome α} {change : Outcome σ} {both : Outcome (α × σ)}
      (tested : test = .ok answer) (changed : change = .ok after) (together : both = .ok (answer, after)) :
      Fusion test change both
  | failed {failure : Failure} {test : Outcome α} {change : Outcome σ} {both : Outcome (α × σ)}
      (failed : change = .error failure) (together : both = .error failure) : Fusion test change both

section Fusion
variable {test : Outcome α} {change : Outcome σ} {both : Outcome (α × σ)}

theorem Fusion.eq_ok (h : Fusion test change both) {a : α} (tested : test = .ok a) (changed : change = .ok s) :
    both = .ok (a, s) := by
  cases h with
  | done tested' changed' together =>
    cases tested.symm.trans tested'
    cases changed.symm.trans changed'
    exact together
  | failed failed _ => cases changed.symm.trans failed

theorem Fusion.change_eq_ok (h : Fusion test change both) {a : α} (together : both = .ok (a, s)) : change = .ok s := by
  cases h with
  | done _ changed together' =>
    cases together.symm.trans together'
    exact changed
  | failed _ together' => cases together.symm.trans together'

theorem Fusion.eq_error (h : Fusion test change both) {failure : Failure} (failed : change = .error failure) :
    both = .error failure := by
  cases h with
  | done _ changed _ => cases failed.symm.trans changed
  | failed failed' together =>
    cases failed.symm.trans failed'
    exact together

end Fusion

end Synopsis
