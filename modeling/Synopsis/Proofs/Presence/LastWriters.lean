import Synopsis.Proofs.Presence.ClearedTables
import Synopsis.Proofs.Presence.ItemUnions
import Mathlib

/-! The inverse filter as a map from slots to their last writers. Each operation extends or drops the list of items that
were written, and the slots tell the last item of this list that each of them owns. -/
namespace Synopsis.Presence.Inverse
open Hashing

/-- What an operation asks for, whatever it returns. -/
def Operation.request : Operation → Request
  | .replace data | .insert data => .insert data
  | .contains data => .contains data
  | .containsThenInsert data => .containsThenInsert data
  | .clear | .sweep => .clear

/-- The operations that serve requests. -/
def operations : Operations Inverse :=
  .permanent (fun f data => .ok (f.insert data)) (fun f data => .ok (f.contains data))
    (fun f data => .ok (f.containsThenInsert data)) clear

section Slots
variable (capacity : Nat) (hasher : Hasher)

/-- The slot that owns an item. -/
def slot (data : ByteArray) : Nat := (hasher.word data).toNat % capacity

/-- The last of some items that a slot owns. -/
def lastWriter (items : List ByteArray) (j : Nat) : Option ByteArray :=
  (items.filter fun data => slot capacity hasher data = j).getLast?

/-- The slots that own some items. -/
def occupied (items : List ByteArray) : Finset Nat := items.toFinset.image (slot capacity hasher)

/-- Each slot holds the last of the items that it owns. -/
structure Tracks (items : List ByteArray) (f : Inverse) : Prop where
  hashed : f.hasher = hasher
  size : f.slots.size = capacity
  held : ∀ j < capacity, f.slots[j]? = some (lastWriter capacity hasher items j)

variable {capacity hasher} {items : List ByteArray} {data : ByteArray} {j : Nat} {f : Inverse}

theorem slot_lt (pos : 0 < capacity) (data : ByteArray) : slot capacity hasher data < capacity := Nat.mod_lt _ pos

theorem lastWriter_concat (items : List ByteArray) (data : ByteArray) (j : Nat) :
    lastWriter capacity hasher (items ++ [data]) j =
      if slot capacity hasher data = j then some data else lastWriter capacity hasher items j := by
  rw [lastWriter, List.filter_append]
  by_cases owned : slot capacity hasher data = j
  · simp [owned]
  · simp [owned, lastWriter]

theorem slot_of_lastWriter (last : lastWriter capacity hasher items j = some data) :
    data ∈ items ∧ slot capacity hasher data = j := by
  have listed := List.mem_filter.mp (List.mem_of_getLast? last)
  exact ⟨listed.1, of_decide_eq_true listed.2⟩

theorem exists_lastWriter (member : data ∈ items) :
    ∃ last, lastWriter capacity hasher items (slot capacity hasher data) = some last := by
  have listed : data ∈ items.filter fun other => slot capacity hasher other = slot capacity hasher data :=
    List.mem_filter.mpr ⟨member, decide_eq_true rfl⟩
  exact ⟨_, List.getLast?_eq_getLast_of_ne_nil (List.ne_nil_of_mem listed)⟩

theorem tracks_empty (capacity : Nat) (hasher : Hasher) : Tracks capacity hasher [] (empty capacity hasher) := by
  refine ⟨rfl, Array.size_replicate, fun j inside => ?_⟩
  rw [empty, Array.getElem?_replicate, if_pos inside]
  rfl

theorem Tracks.index_eq (h : Tracks capacity hasher items f) (data : ByteArray) :
    f.index data = slot capacity hasher data := by
  rw [index, slot, Inverse.capacity, h.hashed, h.size]

theorem Tracks.occupant?_eq (h : Tracks capacity hasher items f) (pos : 0 < capacity) (data : ByteArray) :
    f.occupant? data = lastWriter capacity hasher items (slot capacity hasher data) := by
  rw [occupant?, h.index_eq, h.held _ (slot_lt pos data)]
  rfl

theorem Tracks.contains_iff (h : Tracks capacity hasher items f) (pos : 0 < capacity) :
    f.contains data = true ↔ lastWriter capacity hasher items (slot capacity hasher data) = some data := by
  rw [contains, h.occupant?_eq pos, beq_iff_eq]

theorem Tracks.insert (h : Tracks capacity hasher items f) (data : ByteArray) :
    Tracks capacity hasher (items ++ [data]) (f.insert data) := by
  refine ⟨h.hashed, (Array.size_setIfInBounds ..).trans h.size, fun j inside => ?_⟩
  rw [Inverse.insert, h.index_eq, Array.getElem?_setIfInBounds, h.size, lastWriter_concat]
  by_cases owned : slot capacity hasher data = j
  · rw [if_pos owned, if_pos owned, if_pos (owned ▸ inside)]
  · rw [if_neg owned, if_neg owned, h.held j inside]

theorem Tracks.clear (h : Tracks capacity hasher items f) : Tracks capacity hasher [] f.clear := by
  rw [Inverse.clear, Inverse.capacity, h.hashed, h.size]
  exact tracks_empty capacity hasher

theorem Tracks.contained_injOn (h : Tracks capacity hasher items f) (pos : 0 < capacity) :
    Set.InjOn (slot capacity hasher) {data | f.contains data = true} := by
  intro x hx y hy same
  have first := (h.contains_iff pos).mp hx
  have second := (h.contains_iff pos).mp hy
  exact Option.some_injective _ (first.symm.trans (same ▸ second))

theorem Tracks.image_contained (h : Tracks capacity hasher items f) (pos : 0 < capacity) :
    slot capacity hasher '' {data | f.contains data = true} = occupied capacity hasher items := by
  ext j
  simp only [Set.mem_image, Set.mem_ofPred_eq, occupied, Finset.coe_image, List.coe_toFinset]
  constructor
  · rintro ⟨data, found, rfl⟩
    exact ⟨data, (slot_of_lastWriter ((h.contains_iff pos).mp found)).1, rfl⟩
  · rintro ⟨data, member, rfl⟩
    obtain ⟨last, written⟩ : ∃ last, lastWriter capacity hasher items (slot capacity hasher data) = some last :=
      exists_lastWriter member
    have owner : slot capacity hasher last = slot capacity hasher data := (slot_of_lastWriter written).2
    exact ⟨last, (h.contains_iff pos).mpr (owner ▸ written), owner⟩

theorem Tracks.encard_contained (h : Tracks capacity hasher items f) (pos : 0 < capacity) :
    {data | f.contains data = true}.encard = (occupied capacity hasher items).card := by
  rw [← (h.contained_injOn pos).encard_image, h.image_contained pos, Set.encard_coe_eq_coe_finsetCard]

end Slots

section Runs
variable {capacity : Nat} {hasher : Hasher} {f : Inverse}

theorem step_request (f : Inverse) (operation : Operation) :
    (operations.step f operation.request).2 = operation.after f := by
  cases operation with
  | replace data => rfl
  | insert data => rfl
  | contains data => rfl
  | containsThenInsert data => rfl
  | clear => rfl
  | sweep => exact (congrFun sweep_eq_clear f).symm

theorem serve_requests (f : Inverse) (calls : List Operation) :
    (serve operations.step f (calls.map Operation.request)).2 = calls.foldl Operation.after f := by
  induction calls generalizing f with
  | nil => rfl
  | cons operation rest ih =>
    rw [List.map_cons, List.foldl_cons, ← ih, ← step_request]
    rfl

theorem Tracks.step {requests : List Request} (h : Tracks capacity hasher (added requests) f) (request : Request) :
    Tracks capacity hasher (added (requests ++ [request])) (operations.step f request).2 := by
  rw [added_concat]
  cases request with
  | insert data => exact h.insert data
  | contains data => exact (List.append_nil _).symm ▸ h
  | containsThenInsert data => exact h.insert data
  | containsThenErase data => exact (List.append_nil _).symm ▸ h
  | clear => exact h.clear

theorem tracks_serve (capacity : Nat) (hasher : Hasher) (requests : List Request) :
    Tracks capacity hasher (added requests) (serve operations.step (empty capacity hasher) requests).2 := by
  induction requests using List.reverseRecOn with
  | nil => exact tracks_empty capacity hasher
  | append_singleton requests request ih =>
    rw [serve_append]
    exact ih.step request

end Runs

/-- Every slot holds the item written last of those that it owns, since the slots were freed. So an item is found just
if it was the last one written to its slot, a write returns the item written there before it, and as many items are
found as slots have been written. Which of the methods were used makes no difference to the filter. -/
theorem slots_hold_last_writers (capacity : Nat) (hasher : Hasher) (pos : 0 < capacity) (calls : List Operation) :
    let f := calls.foldl Operation.after (empty capacity hasher)
    let items := added (calls.map Operation.request)
    let last := lastWriter capacity hasher items
    ofConfig ⟨capacity, hasher⟩ = .ok (empty capacity hasher) ∧
    f.slots.size = capacity ∧
    (∀ j < capacity, f.slots[j]? = some (last j)) ∧
    (∀ data,
      (f.contains data = true ↔ last (slot capacity hasher data) = some data) ∧
      ((f.containsThenInsert data).1 = true ↔ last (slot capacity hasher data) = some data) ∧
      (f.replace data).1 = last (slot capacity hasher data) ∧
      (f.replace data).2 = f.insert data ∧ (f.containsThenInsert data).2 = f.insert data) ∧
    f.sweep = f.clear ∧
    (serve operations.step (empty capacity hasher) (calls.map Operation.request)).2 = f ∧
    {data | f.contains data = true}.encard = (occupied capacity hasher items).card := by
  intro f items last
  have served : (serve operations.step (empty capacity hasher) (calls.map Operation.request)).2 = f :=
    serve_requests _ calls
  have tracks : Tracks capacity hasher items f := served ▸ tracks_serve capacity hasher _
  have accepted : Config.validate ⟨capacity, hasher⟩ = .ok () := require_eq_ok.mpr (decide_eq_true pos)
  refine ⟨bind_eq_ok.mpr ⟨(), accepted, rfl⟩, tracks.size, tracks.held, fun data => ?_, congrFun sweep_eq_clear f,
    served, tracks.encard_contained pos⟩
  exact ⟨tracks.contains_iff pos, tracks.contains_iff pos, tracks.occupant?_eq pos data, rfl, rfl⟩

/-- One item that is forgotten, then two for the second slot and one for the first. -/
private def colliding : List Operation :=
  [.insert (Hasher.dataOf 2 0), .sweep, .replace (Hasher.dataOf 1 2), .containsThenInsert (Hasher.dataOf 4 0),
    .contains (Hasher.dataOf 1 2), .insert (Hasher.dataOf 3 0)]

theorem colliding_items_leave_two :
    let f := colliding.foldl Operation.after (empty 3 .leadingBytes)
    0 < 3 ∧ f.slots[0]? = some (some (Hasher.dataOf 3 0)) ∧ f.slots[1]? = some (some (Hasher.dataOf 4 0)) ∧
      f.slots[2]? = some none ∧ f.contains (Hasher.dataOf 1 2) = false ∧
      (f.containsThenInsert (Hasher.dataOf 4 0)).1 = true ∧
      (f.replace (Hasher.dataOf 1 2)).1 = some (Hasher.dataOf 4 0) ∧
      {data | f.contains data = true}.encard = 2 := by
  intro f
  obtain ⟨-, -, held, each, -, -, count⟩ := slots_hold_last_writers 3 .leadingBytes (by decide) colliding
  have missing : f.contains (Hasher.dataOf 1 2) = false :=
    Bool.eq_false_iff.mpr (mt (each (Hasher.dataOf 1 2)).1.mp (by decide))
  have two : (occupied 3 .leadingBytes (added (colliding.map Operation.request))).card = 2 := by decide
  refine ⟨by decide, held 0 (by decide), held 1 (by decide), held 2 (by decide), missing,
    (each _).2.1.mpr (by decide), (each _).2.2.1, ?_⟩
  rw [count, two]
  rfl

end Synopsis.Presence.Inverse
