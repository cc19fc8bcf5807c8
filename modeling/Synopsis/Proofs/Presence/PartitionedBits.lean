import Synopsis.Presence.PartitionedBloom
import Synopsis.Proofs.Packed.CellUpdates

/-! What the bits of a partitioned filter say. The bit of a partition is set just if some item inserted has
it, so the partitions are a function of the items. -/
namespace Synopsis.Presence.PartitionedBloom
open Hashing Packed

/-- A bit array that has a given size and is not empty. -/
structure Row (length : Nat) (cells : Counters) : Prop where
  size : cells.size = length
  width : cells.width = 1
  pos : 0 < length

section Loops
variable {size : Nat} {cells : Counters} {rows : List Counters}

theorem Row.index_lt (h : Row size cells) (p : Probe) (n : Nat) : p.index n size < cells.size :=
  h.size.symm ▸ p.index_lt n h.pos

theorem Row.max (h : Row size cells) : cells.max = 1 := by
  rw [Counters.max, h.width]
  rfl

theorem Row.set (h : Row size cells) (p : Probe) (n : Nat) :
    cells.set (p.index n size) 1 = .ok (cells.write (p.index n size) 1) := by
  rw [Counters.set_of_lt (h.index_lt p n), h.max, min_self]

theorem Row.write (h : Row size cells) (i value : Nat) : Row size (cells.write i value) :=
  ⟨h.size, h.width, h.pos⟩

theorem setEach_eq (p : Probe) (h : ∀ cells ∈ rows, Row size cells) (i : Nat) :
    setEach p size i rows =
      .ok ((rows.zipIdx i).map fun (cells, n) => cells.write (p.index n size) 1) := by
  induction rows generalizing i with
  | nil => rfl
  | cons cells rest ih =>
    obtain ⟨here, there⟩ := List.forall_mem_cons.mp h
    simp only [setEach, here.set, ih there, List.zipIdx_cons, List.map_cons]
    rfl

theorem coversEach_eq (p : Probe) (h : ∀ cells ∈ rows, Row size cells) (i : Nat) :
    coversEach p size i rows =
      .ok ((rows.zipIdx i).all fun (cells, n) => cells.read (p.index n size) ≠ 0) := by
  induction rows generalizing i with
  | nil => rfl
  | cons cells rest ih =>
    obtain ⟨here, there⟩ := List.forall_mem_cons.mp h
    simp only [coversEach, Counters.get_of_lt (here.index_lt p i), ih there, List.zipIdx_cons, List.all_cons]
    by_cases free : cells.read (p.index i size) = 0
    · simp only [free, ne_eq, not_true_eq_false, decide_false, Bool.false_and]
      rfl
    · simp only [ne_eq, free, not_false_eq_true, decide_true, Bool.true_and]
      exact if_neg free

/-- Each partition is read before its bit is set, and setting a bit of one leaves the others. -/
theorem setEachSeeing_fusion (p : Probe) (size i : Nat) (rows : List Counters) :
    Fusion (coversEach p size i rows) (setEach p size i rows) (setEachSeeing p size i rows) := by
  induction rows generalizing i with
  | nil => exact .done rfl rfl rfl
  | cons cells rest ih =>
    simp only [coversEach, setEach, setEachSeeing, Counters.get, Counters.set]
    by_cases inside : p.index i size < cells.size
    · rw [if_pos inside, if_pos inside]
      cases ih (i + 1) with
      | failed failed together =>
        rw [failed, together]
        exact .failed rfl rfl
      | @done member _ _ _ _ tested changed together =>
        rw [tested, changed, together]
        have seen : (if cells.read (p.index i size) = 0 then pure false else .ok member : Outcome Bool) =
            .ok (cells.read (p.index i size) ≠ 0 && member) := by
          by_cases zero : cells.read (p.index i size) = 0
          · simp [zero, pure, Except.pure]
          · simp [zero]
        exact .done seen rfl rfl
    · rw [if_neg inside, if_neg inside]
      exact .failed rfl rfl

end Loops

/-- The bit of an item in the partition with number `n`. -/
def bit (f : PartitionedBloom) (data : ByteArray) (n : Nat) : Nat := (f.probe data).index n f.partitionSize

/-- Inserts items in order. -/
def feed (f : PartitionedBloom) (items : List ByteArray) : Outcome PartitionedBloom := items.foldlM insert f

/-- A filter that addresses its bits as `fresh` does. -/
structure Shaped (fresh f : PartitionedBloom) : Prop where
  size : f.size = fresh.size
  partitionSize : f.partitionSize = fresh.partitionSize
  hasher : f.hasher = fresh.hasher
  hashes : f.hashes = fresh.hashes

/-- The filter holds exactly the bits of the items, and counts them. -/
structure Holds (items : List ByteArray) (f : PartitionedBloom) : Prop where
  rows : ∀ cells ∈ f.partitions, Row f.partitionSize cells
  count : f.count = items.length
  bits : ∀ n cells, f.partitions[n]? = some cells → ∀ j < f.partitionSize,
    (cells.read j ≠ 0 ↔ ∃ item ∈ items, f.bit item n = j)

section Steps
variable {items : List ByteArray} {fresh f : PartitionedBloom}

theorem empty_holds {m : Nat} (pos : 0 < m) (k : Nat) (hasher : Hasher) : Holds [] (empty m k hasher) := by
  refine ⟨fun cells member => ?_, rfl, fun n cells there j _ => ?_⟩
  · obtain ⟨hashed, rfl⟩ := List.mem_replicate.mp member
    exact ⟨rfl, rfl, Nat.div_pos (by omega) (Nat.pos_of_ne_zero hashed)⟩
  · obtain ⟨-, rfl⟩ := List.mem_replicate.mp (List.mem_of_getElem? there)
    simp

/-- The test looks for each bit of the item in the partition of that bit. -/
theorem Holds.contains (h : Holds items f) (data : ByteArray) :
    f.contains data = .ok (decide (∀ n < f.hashes, ∃ item ∈ items, f.bit item n = f.bit data n)) := by
  rw [PartitionedBloom.contains, coversEach_eq _ h.rows]
  refine congrArg Except.ok (Bool.eq_iff_iff.mpr ?_)
  simp only [List.all_eq_true, decide_eq_true_eq, Prod.forall, List.mem_zipIdx_iff_getElem?]
  refine ⟨fun set n small => ?_, fun hit cells n there => ?_⟩
  · have there := List.getElem?_eq_getElem small
    have row := h.rows _ (List.mem_of_getElem? there)
    exact (h.bits n _ there _ (Probe.index_lt _ n row.pos)).mp (set _ n there)
  · have row := h.rows _ (List.mem_of_getElem? there)
    obtain ⟨small, -⟩ := List.getElem?_eq_some_iff.mp there
    exact (h.bits n cells there _ (Probe.index_lt _ n row.pos)).mpr (hit n small)

theorem Holds.contains_of_mem (h : Holds items f) {data : ByteArray} (member : data ∈ items) :
    f.contains data = .ok true := by
  rw [h.contains]
  exact congrArg Except.ok (decide_eq_true fun _ _ => ⟨data, member, rfl⟩)

theorem Holds.insert (h : Holds items f) (data : ByteArray) :
    ∃ g, f.insert data = .ok g ∧ Holds (items ++ [data]) g ∧ Shaped f g := by
  let partitions := f.partitions.zipIdx.map fun (cells, n) => cells.write (f.bit data n) 1
  have run : f.insert data = .ok { f with partitions, count := f.count + 1 } := by
    rw [PartitionedBloom.insert, setEach_eq _ h.rows]
    rfl
  have written {n : Nat} {cells : Counters} (there : partitions[n]? = some cells) :
      ∃ before, f.partitions[n]? = some before ∧ before.write (f.bit data n) 1 = cells := by
    simpa only [partitions, List.getElem?_map, List.getElem?_zipIdx, Option.map_map, Nat.zero_add,
      Option.map_eq_some_iff, Function.comp_apply] using there
  refine ⟨_, run, ⟨fun cells member => ?_, ?_, fun n cells there j small => ?_⟩, rfl, rfl, rfl, ?_⟩
  · obtain ⟨n, there⟩ := List.mem_iff_getElem?.mp member
    obtain ⟨before, old, rfl⟩ := written there
    exact (h.rows before (List.mem_of_getElem? old)).write _ _
  · rw [List.length_append, ← h.count]
    rfl
  · obtain ⟨before, old, rfl⟩ := written there
    have row := h.rows before (List.mem_of_getElem? old)
    have others : before.read j ≠ 0 ↔ ∃ item ∈ items, f.bit item n = j := h.bits n before old j small
    change (before.write (f.bit data n) 1).read j ≠ 0 ↔ ∃ item ∈ items ++ [data], f.bit item n = j
    rw [bit, Counters.read_write (row.index_lt _ n) row.max.ge, ← bit]
    by_cases same : f.bit data n = j
    · simp [same]
    · simp [same, others]
  · simp [hashes, partitions]

theorem Shaped.trans {g : PartitionedBloom} (h : Shaped fresh f) (k : Shaped f g) : Shaped fresh g :=
  ⟨k.size.trans h.size, k.partitionSize.trans h.partitionSize, k.hasher.trans h.hasher,
    k.hashes.trans h.hashes⟩

theorem Holds.feed (h : Holds items f) (more : List ByteArray) :
    ∃ g, f.feed more = .ok g ∧ Holds (items ++ more) g ∧ Shaped f g := by
  refine foldlM_keeps (P := fun done g => Holds (items ++ done) g ∧ Shaped f g)
    ⟨(List.append_nil items).symm ▸ h, rfl, rfl, rfl, rfl⟩ ?_
  rintro done data g - ⟨holds, shaped⟩
  obtain ⟨next, run, more, same⟩ := holds.insert data
  rw [List.append_assoc] at more
  exact ⟨next, run, more, shaped.trans same⟩

/-- Emptied partitions are those that the filter started with. -/
theorem Holds.clear {m k : Nat} {hasher : Hasher} (h : Holds items f) (shaped : Shaped (empty m k hasher) f) :
    f.clear = empty m k hasher := by
  have blank : f.partitions.map Counters.clear = (empty m k hasher).partitions := by
    refine List.eq_replicate_iff.mpr ⟨?_, fun cells member => ?_⟩
    · rw [List.length_map]
      exact shaped.hashes.trans List.length_replicate
    · obtain ⟨before, old, rfl⟩ := List.mem_map.mp member
      have row := h.rows before old
      rw [Counters.clear, row.size, row.width, shaped.partitionSize]
      rfl
  rw [PartitionedBloom.clear, blank, shaped.size, shaped.partitionSize, shaped.hasher]
  rfl

end Steps
end Synopsis.Presence.PartitionedBloom
