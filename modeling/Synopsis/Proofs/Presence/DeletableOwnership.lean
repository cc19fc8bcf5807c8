import Synopsis.Presence.DeletableBloom
import Synopsis.Proofs.Packed.CellUpdates
import Synopsis.Proofs.Presence.Requests

/-! Why erasures from a deletable filter are safe: outside the collided regions every set bit belongs to
one hash position of one held copy, so clearing the bits of a copy clears no bit of another. -/
namespace Synopsis.Presence.DeletableBloom
open Hashing Packed

/-- `cover` tells how often each bit is hit. A bit that is hit is set, and outside the collided regions
the bit is the number of its hits. -/
structure Owned (regionSize : Nat) (cover : Nat → Nat) (cells collisions : Counters) : Prop where
  bit : cells.width = 1
  flag : collisions.width = 1
  regions : ∀ i < cells.size, i / regionSize < collisions.size
  covered : ∀ i < cells.size, cover i ≠ 0 → cells.read i = 1
  counted : ∀ i < cells.size, collisions.read (i / regionSize) = 0 → cells.read i = cover i

/-- Owned after further hits at the positions `done`. -/
def Marked (regionSize : Nat) (cover : Nat → Nat) (size : Nat) (done : List Nat)
    (state : Counters × Counters) : Prop :=
  state.1.size = size ∧ Owned regionSize (fun j => cover j + done.count j) state.1 state.2

/-- The bits at the positions `done` are cleared, but for those in collided regions. -/
def Released (regionSize : Nat) (cells collisions : Counters) (done : List Nat) (left : Counters) : Prop :=
  left.size = cells.size ∧ left.width = 1 ∧ ∀ j < cells.size, left.read j =
    if j ∈ done ∧ collisions.read (j / regionSize) = 0 then 0 else cells.read j

private theorem max_of_bit {c : Counters} (h : c.width = 1) : c.max = 1 := by
  rw [Counters.max, h]
  rfl

section Sweeps
variable {regionSize : Nat} {cover : Nat → Nat} {cells collisions : Counters}

theorem Owned.max_cells (h : Owned regionSize cover cells collisions) : cells.max = 1 :=
  max_of_bit h.bit

theorem Owned.max_collisions (h : Owned regionSize cover cells collisions) : collisions.max = 1 :=
  max_of_bit h.flag

theorem markOrSet_eq (h : Owned regionSize cover cells collisions) {i : Nat} (hi : i < cells.size) :
    markOrSet regionSize (cells, collisions) i = .ok (if cells.read i = 1
      then (cells, collisions.write (i / regionSize) 1) else (cells.write i 1, collisions)) := by
  have fits : min 1 cells.max = 1 := by rw [h.max_cells, min_self]
  have flags : min 1 collisions.max = 1 := by rw [h.max_collisions, min_self]
  simp only [markOrSet, Counters.get_of_lt hi, Counters.set_of_lt hi,
    Counters.set_of_lt (h.regions i hi), fits, flags]
  change (if cells.read i = 1 then Except.ok _ else Except.ok _) = _
  split <;> rfl

theorem markOrSet_owned (h : Owned regionSize cover cells collisions) {i : Nat} (hi : i < cells.size) :
    ∃ state, markOrSet regionSize (cells, collisions) i = .ok state ∧
      Marked regionSize cover cells.size [i] state := by
  have hr := h.regions i hi
  have fits : 1 ≤ cells.max := h.max_cells.ge
  have flags : 1 ≤ collisions.max := h.max_collisions.ge
  refine ⟨_, markOrSet_eq h hi, ?_⟩
  by_cases set : cells.read i = 1
  · -- the region is given up, and with it all that was known of its bits but that they are set
    rw [if_pos set]
    refine ⟨rfl, h.bit, h.flag, h.regions, fun j hj hit => ?_, fun j hj free => ?_⟩
    · by_cases same : i = j
      · exact same ▸ set
      · exact h.covered j hj (by simpa [List.count_singleton, same] using hit)
    · rw [Counters.read_write hr flags] at free
      split at free
      next => cases free
      next apart =>
        have other : i ≠ j := fun same => apart (by rw [same])
        simpa [List.count_singleton, other] using h.counted j hj free
  · have unhit : cover i = 0 := by
      by_contra hit
      exact set (h.covered i hi hit)
    rw [if_neg set]
    refine ⟨rfl, h.bit, h.flag, h.regions, fun j hj hit => ?_, fun j hj free => ?_⟩
    · rw [Counters.read_write hi fits]
      split
      next => rfl
      next other => exact h.covered j hj (by simpa [List.count_singleton, other] using hit)
    · rw [Counters.read_write hi fits]
      split
      next same => simp [← same, unhit]
      next other => simpa [List.count_singleton, other] using h.counted j hj free

theorem Marked.step {size : Nat} {done : List Nat} {state : Counters × Counters}
    (h : Marked regionSize cover size done state) {i : Nat} (hi : i < size) :
    ∃ next, markOrSet regionSize state i = .ok next ∧
      Marked regionSize cover size (done ++ [i]) next := by
  obtain ⟨rfl, owned⟩ := h
  obtain ⟨next, run, same, more⟩ := markOrSet_owned owned hi
  refine ⟨next, run, same, ?_⟩
  simpa only [List.count_append, add_assoc] using more

/-- Inserting a copy adds its hits, also where they repeat. -/
theorem mark_owned (h : Owned regionSize cover cells collisions) {positions : List Nat}
    (inside : ∀ i ∈ positions, i < cells.size) :
    ∃ state, positions.foldlM (markOrSet regionSize) (cells, collisions) = .ok state ∧
      Marked regionSize cover cells.size positions state :=
  foldlM_keeps (P := Marked regionSize cover cells.size) ⟨rfl, h⟩
    fun _ i _ member marked => marked.step (inside i member)

theorem Released.step {done : List Nat} {left : Counters}
    (h : Released regionSize cells collisions done left) {i : Nat} (hi : i < cells.size)
    (hr : i / regionSize < collisions.size) :
    ∃ next, release regionSize collisions left i = .ok next ∧
      Released regionSize cells collisions (done ++ [i]) next := by
  obtain ⟨size, bit, content⟩ := h
  have inside : i < left.size := size ▸ hi
  have run : release regionSize collisions left i =
      .ok (if collisions.read (i / regionSize) = 0 then left.write i 0 else left) := by
    simp only [release, Counters.get_of_lt hr, Counters.set_of_lt inside, Nat.zero_min]
    change (if collisions.read (i / regionSize) = 0 then Except.ok _ else Except.ok _) = _
    split <;> rfl
  refine ⟨_, run, ?_⟩
  by_cases free : collisions.read (i / regionSize) = 0
  · rw [if_pos free]
    refine ⟨size, bit, fun j hj => ?_⟩
    rw [Counters.read_write inside (Nat.zero_le _), content j hj]
    by_cases same : i = j
    · subst same
      simp [free]
    · simp [same, Ne.symm same]
  · rw [if_neg free]
    refine ⟨size, bit, fun j hj => ?_⟩
    rw [content j hj]
    by_cases same : i = j
    · subst same
      simp [free]
    · simp [Ne.symm same]

theorem release_released (h : Owned regionSize cover cells collisions) {positions : List Nat}
    (inside : ∀ i ∈ positions, i < cells.size) :
    ∃ left, positions.foldlM (release regionSize collisions) cells = .ok left ∧
      Released regionSize cells collisions positions left :=
  foldlM_keeps (P := Released regionSize cells collisions) ⟨rfl, h.bit, fun j _ => by simp⟩
    fun _ i _ member released => released.step (inside i member) (h.regions i (inside i member))

/-- Taking out a copy takes its hits: outside the collided regions each of its bits was hit by it alone,
and once. -/
theorem Released.owned {positions : List Nat} {left : Counters}
    (released : Released regionSize cells collisions positions left)
    (h : Owned regionSize cover cells collisions)
    (held : ∀ i < cells.size, positions.count i ≤ cover i) :
    Owned regionSize (fun j => cover j - positions.count j) left collisions := by
  obtain ⟨size, bit, content⟩ := released
  refine ⟨bit, h.flag, size ▸ h.regions, fun j hj hit => ?_, fun j hj free => ?_⟩
  · rw [size] at hj
    have set := h.covered j hj (by omega)
    rw [content j hj]
    split
    next gone =>
      -- its one hit was the copy's own
      have alone := h.counted j hj gone.2
      have own := List.count_pos_iff.mpr gone.1
      omega
    next => exact set
  · rw [size] at hj
    have alone := h.counted j hj free
    have most := held j hj
    have bound := h.max_cells ▸ cells.read_le_max j
    rw [content j hj]
    split
    next gone =>
      have own := List.count_pos_iff.mpr gone.1
      omega
    next kept =>
      have none_here : positions.count j = 0 :=
        List.count_eq_zero.mpr fun member => kept ⟨member, free⟩
      omega

end Sweeps

end Synopsis.Presence.DeletableBloom
