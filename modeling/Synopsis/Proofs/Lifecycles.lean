import Synopsis.Hashing.Hasher
import Synopsis.Proofs.Folds

/-! Structures that are made for a hasher, changed and cleared. What no operation touches is what a new structure
starts with, so that clearing amounts to making the structure anew. -/
namespace Synopsis
open Hashing

/-- An operation of a structure, or the choice of another hasher. -/
inductive Action (α : Type) where
  | operation (a : α)
  | withHasher (hasher : Hasher)

/-- The hasher that is in force after an action. -/
def Action.choice {α : Type} (hasher : Hasher) : Action α → Hasher
  | .operation _ => hasher
  | .withHasher other => other

/-- The hasher chosen last. -/
def chosen {α : Type} (hasher : Hasher) (actions : List (Action α)) : Hasher :=
  actions.foldl Action.choice hasher

/-- A failed operation leaves the structure as it was. -/
def settled {S : Type} (s : S) : Outcome S → S
  | .ok t => t
  | .error _ => s

theorem settled_of {S : Type} {P : S → Prop} {s : S} {outcome : Outcome S} (before : P s)
    (after : ∀ t, outcome = .ok t → P t) : P (settled s outcome) := by
  cases outcome with
  | ok t => exact after t rfl
  | error _ => exact before

/-- The structures of one configuration, with operations `α` and a source `σ` of random words. -/
structure Lifecycle (σ S α : Type) where
  /-- A new structure. -/
  make : Hasher → σ → Outcome S
  step : S → α → S
  withHasher : S → Hasher → S
  source : S → σ
  clear : S → S

namespace Lifecycle
variable {σ S α : Type}

def act (l : Lifecycle σ S α) (s : S) : Action α → S
  | .operation a => l.step s a
  | .withHasher hasher => l.withHasher s hasher

def run (l : Lifecycle σ S α) (s : S) (actions : List (Action α)) : S := actions.foldl l.act s

/-- What each operation and each choice of a hasher keep is kept by every run. -/
theorem run_keeps {l : Lifecycle σ S α} {P : S → Prop} (step : ∀ s a, P s → P (l.step s a))
    (withHasher : ∀ s hasher, P s → P (l.withHasher s hasher)) {s : S} (start : P s) (actions : List (Action α)) :
    P (l.run s actions) := by
  induction actions generalizing s with
  | nil => exact start
  | cons action rest ih =>
    cases action with
    | operation a => exact ih (step s a start)
    | withHasher hasher => exact ih (withHasher s hasher start)

/-- A property of every structure that can be reached from one that was made. -/
def Always (l : Lifecycle σ S α) (P : S → Prop) : Prop :=
  ∀ hasher source s, l.make hasher source = .ok s → ∀ actions, P (l.run s actions)

/-- What holds wherever an invariant does holds of every structure that can be reached. -/
theorem always_of_invariant {l : Lifecycle σ S α} {Good P : S → Prop}
    (make : ∀ hasher source s, l.make hasher source = .ok s → Good s) (step : ∀ s a, Good s → Good (l.step s a))
    (withHasher : ∀ s hasher, Good s → Good (l.withHasher s hasher)) (holds : ∀ s, Good s → P s) : l.Always P :=
  fun hasher source s made actions => holds _ (run_keeps step withHasher (make hasher source s made) actions)

/-- Whatever has been done to a structure, clearing it gives the structure that is made with the hasher chosen
last, its source where it is. -/
def Renews (l : Lifecycle σ S α) : Prop :=
  ∀ hasher source s, l.make hasher source = .ok s → ∀ actions,
    l.make (chosen hasher actions) (l.source (l.run s actions)) = .ok (l.clear (l.run s actions))

/-- Whatever the hasher and the source are, `new` is what is made, if anything is; and every operation leaves a good
structure from which `renew` makes the same one as before. -/
structure Lasts (l : Lifecycle σ S α) (new : Hasher → σ → S) (Good : S → Prop) (renew : S → σ → S) : Prop where
  make (hasher : Hasher) (source : σ) (s : S) (made : l.make hasher source = .ok s) :
    new hasher source = s ∧ ∀ other place, l.make other place = .ok (new other place)
  start (hasher : Hasher) (source : σ) :
    Good (new hasher source) ∧ ∀ place, renew (new hasher source) place = new hasher place
  step (s : S) (a : α) (good : Good s) : Good (l.step s a) ∧ ∀ place, renew (l.step s a) place = renew s place
  withHasher (s : S) (hasher : Hasher) (good : Good s) : Good (l.withHasher s hasher) ∧
    ∀ place, renew (l.withHasher s hasher) place = l.withHasher (renew s place) hasher
  choice (hasher other : Hasher) (source : σ) : l.withHasher (new hasher source) other = new other source
  clear (s : S) (good : Good s) : l.clear s = renew s (l.source s)

section Runs
variable {l : Lifecycle σ S α} {new : Hasher → σ → S} {Good : S → Prop} {renew : S → σ → S}

theorem Lasts.run (lasts : l.Lasts new Good renew) (hasher : Hasher) (source : σ) (actions : List (Action α)) :
    Good (l.run (new hasher source) actions) ∧
      ∀ place, renew (l.run (new hasher source) actions) place = new (chosen hasher actions) place := by
  induction actions using List.reverseRecOn with
  | nil => exact lasts.start hasher source
  | append_singleton before action ih =>
    obtain ⟨good, same⟩ := ih
    simp only [Lifecycle.run, chosen, List.foldl_append, List.foldl_cons, List.foldl_nil] at good same ⊢
    cases action with
    | operation a =>
      obtain ⟨next, kept⟩ := lasts.step _ a good
      exact ⟨next, fun place => (kept place).trans (same place)⟩
    | withHasher last =>
      obtain ⟨next, moved⟩ := lasts.withHasher _ last good
      refine ⟨next, fun place => (moved place).trans ?_⟩
      rw [same]
      exact lasts.choice _ last place

theorem Lasts.renews (lasts : l.Lasts new Good renew) : l.Renews := by
  intro hasher source s made actions
  obtain ⟨rfl, remade⟩ := lasts.make hasher source s made
  obtain ⟨good, same⟩ := lasts.run hasher source actions
  rw [lasts.clear _ good, same]
  exact remade _ _

section Determined
variable {l : Lifecycle Unit S α} (new : Hasher → S)
  (make : ∀ hasher s, l.make hasher () = .ok s → new hasher = s ∧ ∀ other, l.make other () = .ok (new other))
  (choice : ∀ hasher other, l.withHasher (new hasher) other = new other)
include make choice

/-- Where nothing is random, the place of a source does not matter. -/
theorem renews_of_blank (Good : S → Prop) (blank : S → S)
    (start : ∀ hasher, Good (new hasher) ∧ blank (new hasher) = new hasher)
    (step : ∀ s a, Good s → Good (l.step s a) ∧ blank (l.step s a) = blank s)
    (withHasher : ∀ s hasher, Good s →
      Good (l.withHasher s hasher) ∧ blank (l.withHasher s hasher) = l.withHasher (blank s) hasher)
    (clear : ∀ s, Good s → l.clear s = blank s) : l.Renews := by
  have lasts : l.Lasts (fun hasher _ => new hasher) Good fun s _ => blank s := by
    constructor
    case make =>
      intro hasher _ s made
      obtain ⟨same, remade⟩ := make hasher s made
      exact ⟨same, fun other _ => remade other⟩
    case start => exact fun hasher _ => ⟨(start hasher).1, fun _ => (start hasher).2⟩
    case step => exact fun s a good => ⟨(step s a good).1, fun _ => (step s a good).2⟩
    case withHasher =>
      intro s hasher good
      obtain ⟨still, moved⟩ := withHasher s hasher good
      exact ⟨still, fun _ => moved⟩
    case choice => exact fun hasher other _ => choice hasher other
    case clear => exact clear
  exact lasts.renews

/-- Where clearing gives one structure whatever is cleared, it is enough that no operation changes that. -/
theorem renews_of_clear (start : ∀ hasher, l.clear (new hasher) = new hasher)
    (step : ∀ s a, l.clear (l.step s a) = l.clear s)
    (withHasher : ∀ s hasher, l.clear (l.withHasher s hasher) = l.withHasher (l.clear s) hasher) : l.Renews := by
  apply renews_of_blank new make choice (fun _ => True) l.clear
  case start => exact fun hasher => ⟨trivial, start hasher⟩
  case step => exact fun s a _ => ⟨trivial, step s a⟩
  case withHasher => exact fun s hasher _ => ⟨trivial, withHasher s hasher⟩
  case clear => exact fun _ _ => rfl

end Determined
end Runs
end Lifecycle
end Synopsis
