import Synopsis.Proofs.Lifecycles
import Synopsis.Proofs.Presence.CuckooBag
import Synopsis.Proofs.Presence.InverseLedger

/-! What clearing forgets of a table of fingerprints or of items. -/
namespace Synopsis.Presence
open Hashing Randomness

namespace Cuckoo
variable {σ : Type} [Source σ]

/-- What clearing leaves when the source is at a given place. -/
def clearAt (t : Cuckoo σ) (place : σ) : Cuckoo σ := { t.clear with source := place }

theorem clearAt_relocate (kicks : Nat) (t : Cuckoo σ) (i : UInt32) (fingerprint : Fingerprint) :
    (relocate kicks t i fingerprint).2.clearAt = t.clearAt := by
  induction kicks generalizing t i fingerprint with
  | zero => rfl
  | succ kicks ih =>
    rw [relocate]
    dsimp only
    split
    · rfl
    · -- a fingerprint was evicted, and has a free slot or evicts the next one
      split
      · rfl
      · exact ih ..

theorem clearAt_insert (t : Cuckoo σ) (data : ByteArray) : (t.insert data).2.clearAt = t.clearAt := by
  rw [insert]
  split
  · rfl
  · rw [insertKey]
    split
    · rfl
    · split
      · rfl
      · exact clearAt_relocate ..

theorem clearAt_containsThenInsert (t : Cuckoo σ) (data : ByteArray) :
    (t.containsThenInsert data).2.clearAt = t.clearAt := by
  rw [containsThenInsert]
  split
  · rfl
  · rfl
  · exact clearAt_insert ..

omit [Source σ] in
theorem clearAt_containsThenErase {t u : Cuckoo σ} {data : ByteArray} {member : Bool}
    (run : t.containsThenErase data = .ok (member, u)) : u.clearAt = t.clearAt := by
  obtain ⟨_, -, run⟩ := bind_eq_ok.mp run
  split at run
  · cases run
    rfl
  · cases run
    rfl

/-- Insertions that fail have changed the table nevertheless. -/
theorem clearAt_step (t : Cuckoo σ) (request : Request) : (t.step request).2.clearAt = t.clearAt := by
  cases request with
  | insert data => exact clearAt_insert t data
  | contains data => rfl
  | containsThenInsert data => exact clearAt_containsThenInsert t data
  | containsThenErase data =>
    refine settle_kept fun _ u run => ?_
    obtain ⟨_, erased, made⟩ := map_eq_ok.mp run
    cases made
    exact clearAt_containsThenErase erased
  | clear => rfl

def lifecycle (σ : Type) [Source σ] (c : Config) : Lifecycle σ (Cuckoo σ) Request where
  make hasher := ofConfigWith { c with hasher }
  step t request := (t.step request).2
  withHasher := withHasher
  source := source
  clear := clear

theorem renews (c : Config) : (lifecycle σ c).Renews := by
  let size := fingerprintSizeFor c.falsePositiveRate
  have lasts : (lifecycle σ c).Lasts (empty (bucketsFor c.capacity size) size c.capacity c.maxKicks) (fun _ => True)
      clearAt := by
    constructor
    case make =>
      intro hasher source t run
      obtain ⟨_, valid, run⟩ := bind_eq_ok.mp run
      exact ⟨Except.ok.inj run, fun other place => bind_eq_ok.mpr ⟨_, valid, rfl⟩⟩
    case start => exact fun hasher source => ⟨trivial, fun place => rfl⟩
    case step => exact fun t request _ => ⟨trivial, congrFun (clearAt_step t request)⟩
    case withHasher => exact fun t hasher _ => ⟨trivial, fun place => rfl⟩
    case choice => exact fun hasher other source => rfl
    case clear => exact fun t _ => rfl
  exact lasts.renews

end Cuckoo

namespace Inverse

/-- What can be done to the slots. -/
inductive Operation where
  | replace (data : ByteArray)
  | insert (data : ByteArray)
  | contains (data : ByteArray)
  | containsThenInsert (data : ByteArray)
  | clear
  | sweep

def Operation.after (f : Inverse) : Operation → Inverse
  | .replace data => (f.replace data).2
  | .insert data => f.insert data
  | .contains _ => f
  | .containsThenInsert data => (f.containsThenInsert data).2
  | .clear => f.clear
  | .sweep => f.sweep

theorem size_freed (slots : Array (Option ByteArray)) (places : List Nat) :
    (places.foldl (fun slots i => slots.setIfInBounds i none) slots).size = slots.size := by
  induction places generalizing slots with
  | nil => rfl
  | cons i rest ih => rw [List.foldl_cons, ih, Array.size_setIfInBounds]

/-- So many slots from the first on have been freed. -/
theorem getElem?_freed (slots : Array (Option ByteArray)) (n i : Nat) :
    ((List.range n).foldl (fun slots i => slots.setIfInBounds i none) slots)[i]? =
      if i < n ∧ i < slots.size then some none else slots[i]? := by
  induction n with
  | zero => rfl
  | succ n ih =>
    rw [List.range_succ, List.foldl_append, List.foldl_cons, List.foldl_nil, Array.getElem?_setIfInBounds, ih,
      size_freed]
    by_cases last : n = i
    · subst last
      by_cases inside : n < slots.size
      · simp [inside]
      · simp [inside]
    · have later : i < n + 1 ↔ i < n := by omega
      simp only [if_neg last, later]

theorem sweep_eq_clear : sweep = clear := by
  funext f
  have freed : (List.range f.slots.size).foldl (fun slots i => slots.setIfInBounds i none) f.slots =
      Array.replicate f.slots.size none := by
    apply Array.ext_getElem?
    intro i
    rw [getElem?_freed, Array.getElem?_replicate]
    by_cases inside : i < f.slots.size
    · rw [if_pos ⟨inside, inside⟩, if_pos inside]
    · rw [if_neg fun both => inside both.1, if_neg inside]
      exact Array.getElem?_eq_none (Nat.le_of_not_lt inside)
  simp only [sweep, clear, capacity, empty, freed]

theorem clear_insert (f : Inverse) (data : ByteArray) : (f.insert data).clear = f.clear := by
  simp only [clear, capacity, insert, Array.size_setIfInBounds]

theorem clear_clear (f : Inverse) : f.clear.clear = f.clear := by
  simp only [clear, capacity, empty, Array.size_replicate]

/-- Either of the two ways to free the slots may be meant. -/
def lifecycle (c : Config) (free : Inverse → Inverse) : Lifecycle Unit Inverse Operation where
  make hasher _ := ofConfig { c with hasher }
  step := Operation.after
  withHasher := withHasher
  source _ := ()
  clear := free

theorem renews (c : Config) : (lifecycle c clear).Renews := by
  apply Lifecycle.renews_of_clear (empty c.capacity)
  case make =>
    intro hasher f run
    obtain ⟨_, valid, run⟩ := bind_eq_ok.mp run
    exact ⟨Except.ok.inj run, fun other => bind_eq_ok.mpr ⟨_, valid, rfl⟩⟩
  case start =>
    intro hasher
    change clear (empty _ _) = _
    simp only [clear, capacity, empty, Array.size_replicate]
  case step =>
    intro f operation
    cases operation with
    | replace data => exact clear_insert f data
    | insert data => exact clear_insert f data
    | contains data => rfl
    | containsThenInsert data => exact clear_insert f data
    | clear => exact clear_clear f
    | sweep => exact (congrArg clear (congrFun sweep_eq_clear f)).trans (clear_clear f)
  case withHasher => exact fun f hasher => rfl
  case choice => exact fun hasher other => rfl

theorem sweep_renews (c : Config) : (lifecycle c sweep).Renews := by
  rw [sweep_eq_clear]
  exact renews c

end Inverse

end Synopsis.Presence
