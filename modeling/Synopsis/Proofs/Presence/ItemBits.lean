import Synopsis.Proofs.Packed.ListedCounters
import Synopsis.Proofs.Presence.BloomVariants
import Synopsis.Proofs.Presence.PartitionedBits

/-! Filters whose bits are those of their items: a Bloom filter in one array, a partitioned one in an array
for each hash function. -/
namespace Synopsis.Presence
open Hashing Packed
open Counters (Sound support)

theorem Filled.get {size count b : Nat} {hits : ByteArray → Finset Nat} {items : List ByteArray} {cells : Counters}
    (h : Filled size 1 hits items cells count) (inside : b < size) :
    cells.get b = .ok (if ∃ item ∈ items, b ∈ hits item then 1 else 0) := by
  have place : b < cells.size := h.sound.size.symm ▸ inside
  rw [Counters.get_of_lt place, h.sound.bit inside, h.support]
  exact congrArg Except.ok (if_congr mem_covered rfl rfl)

theorem Bloom.Holds.cells_eq {start f g : Bloom} {items others : List ByteArray} (h : Bloom.Holds start items f)
    (k : Bloom.Holds start others g)
    (same : covered (struck start.positions) items = covered (struck start.positions) others) : f.cells = g.cells :=
  h.sound.ext_support k.sound (h.support.trans (same.trans k.support.symm))

namespace PartitionedBloom

def operations : Operations PartitionedBloom := .permanent insert contains containsThenInsert clear

/-- The bits that an item hits, each with the number of its partition. -/
def marked (start : PartitionedBloom) (data : ByteArray) : Finset (Nat × Nat) :=
  (Finset.range start.hashes).image fun n => (n, start.bit data n)

/-- The filter addresses its bits as `start` does, holds those of the items and nothing after them. -/
structure Unites (start : PartitionedBloom) (items : List ByteArray) (f : PartitionedBloom) : Prop extends
    Holds items f where
  shaped : Shaped start f
  padded : ∀ cells ∈ f.partitions, cells.bits.Padded

section Bits
variable {start f g : PartitionedBloom} {items others : List ByteArray} {cells : Counters} {n : Nat}

theorem Shaped.bit (h : Shaped start f) : f.bit = start.bit := by
  funext data n
  simp only [PartitionedBloom.bit, probe, h.hasher, h.partitionSize]

theorem mem_marked {data : ByteArray} {j : Nat} :
    (n, j) ∈ marked start data ↔ n < start.hashes ∧ start.bit data n = j := by
  simp [marked]

theorem mem_covered_marked {j : Nat} : (n, j) ∈ covered (marked start) items ↔
    n < start.hashes ∧ ∃ item ∈ items, start.bit item n = j := by
  simp only [mem_covered, mem_marked]
  tauto

theorem Unites.sound (h : Unites start items f) (there : cells ∈ f.partitions) :
    Sound start.partitionSize 1 cells := by
  have row := h.rows cells there
  exact ⟨row.size.trans h.shaped.partitionSize, row.width, h.padded cells there⟩

/-- The set bits of a partition are what the items hit there. -/
theorem Unites.mem_support (h : Unites start items f) (there : f.partitions[n]? = some cells) {j : Nat} :
    j ∈ cells.support ↔ (n, j) ∈ covered (marked start) items := by
  obtain ⟨small, -⟩ := List.getElem?_eq_some_iff.mp there
  have row := h.rows cells (List.mem_of_getElem? there)
  have hash : n < start.hashes := h.shaped.hashes ▸ small
  have bits := h.bits n cells there j
  rw [h.shaped.bit] at bits
  rw [Counters.mem_support, row.size, mem_covered_marked]
  constructor
  · rintro ⟨inside, set⟩
    exact ⟨hash, (bits inside).mp set⟩
  · rintro ⟨-, item, member, rfl⟩
    have inside : start.bit item n < f.partitionSize := h.shaped.bit ▸ Probe.index_lt _ n row.pos
    exact ⟨inside, (bits inside).mpr ⟨item, member, rfl⟩⟩

theorem Unites.support_eq (h : Unites start items f) (there : f.partitions[n]? = some cells) :
    cells.support = items.toFinset.image fun item => start.bit item n := by
  obtain ⟨small, -⟩ := List.getElem?_eq_some_iff.mp there
  have hash : n < start.hashes := h.shaped.hashes ▸ small
  ext j
  simp [h.mem_support there, mem_covered_marked, hash]

theorem Unites.get (h : Unites start items f) (there : f.partitions[n]? = some cells) {b : Nat}
    (inside : b < start.partitionSize) :
    cells.get b = .ok (if ∃ item ∈ items, start.bit item n = b then 1 else 0) := by
  have sound := h.sound (List.mem_of_getElem? there)
  have place : b < cells.size := sound.size.symm ▸ inside
  rw [Counters.get_of_lt place, sound.bit inside, h.support_eq there]
  simp

/-- Each item sets one bit of a partition, which another item may have set. -/
theorem Unites.nonzero_bounds (h : Unites start items f) (there : f.partitions[n]? = some cells)
    (some : items ≠ []) : 1 ≤ cells.nonzero ∧ cells.nonzero ≤ min f.count start.partitionSize := by
  have sound := h.sound (List.mem_of_getElem? there)
  rw [sound.nonzero]
  refine ⟨?_, le_min ?_ ?_⟩
  · rw [h.support_eq there]
    exact ((List.toFinset_nonempty_iff items).mpr some).image _ |>.card_pos
  · rw [h.support_eq there, h.count]
    exact Finset.card_image_le.trans (List.toFinset_card_le items)
  · rw [← sound.size, ← Finset.card_range cells.size]
    exact Finset.card_filter_le _ _

theorem Unites.partitions_eq (h : Unites start items f) (k : Unites start others g)
    (same : covered (marked start) items = covered (marked start) others) : f.partitions = g.partitions := by
  have length : f.partitions.length = g.partitions.length := h.shaped.hashes.trans k.shaped.hashes.symm
  refine List.ext_getElem length fun n left right => ?_
  have here := List.getElem?_eq_getElem left
  have there := List.getElem?_eq_getElem right
  refine (h.sound (List.getElem_mem left)).ext_support (k.sound (List.getElem_mem right)) ?_
  ext j
  rw [h.mem_support here, k.mem_support there, same]

theorem Holds.insert_padded (h : Holds items f) (padded : ∀ cells ∈ f.partitions, cells.bits.Padded)
    {data : ByteArray} (run : f.insert data = .ok g) : ∀ cells ∈ g.partitions, cells.bits.Padded := by
  rw [PartitionedBloom.insert, setEach_eq _ h.rows] at run
  cases run
  intro cells member
  obtain ⟨⟨before, n⟩, listed, rfl⟩ := List.mem_map.mp member
  exact (padded before (List.fst_mem_of_mem_zipIdx listed)).setField _ _ _

theorem fused (f : PartitionedBloom) : operations.Fused f := by
  intro data
  simp only [operations, Operations.permanent, PartitionedBloom.containsThenInsert, PartitionedBloom.contains,
    PartitionedBloom.insert]
  cases setEachSeeing_fusion (f.probe data) f.partitionSize 0 f.partitions with
  | done tested changed together =>
    rw [tested, changed, together]
    exact .done rfl rfl rfl
  | failed failed together =>
    rw [failed, together]
    exact .failed rfl rfl

theorem empty_unites {m : Nat} (pos : 0 < m) (k : Nat) (hasher : Hasher) :
    Unites (empty m k hasher) [] (empty m k hasher) := by
  refine ⟨empty_holds pos k hasher, ⟨rfl, rfl, rfl, rfl⟩, fun cells member => ?_⟩
  rw [List.eq_of_mem_replicate member]
  exact Bitmap.zeros_padded _

theorem represents {m : Nat} (pos : 0 < m) (k : Nat) (hasher : Hasher) :
    Represents (marked (empty m k hasher)) operations (Unites (empty m k hasher)) := by
  constructor
  case insert =>
    intro items f h data
    obtain ⟨g, run, holds, same⟩ := h.toHolds.insert data
    exact ⟨g, run, holds, h.shaped.trans same, h.toHolds.insert_padded h.padded run⟩
  case contains =>
    intro items f h data
    refine (h.toHolds.contains data).trans (congrArg Except.ok (decide_eq_decide.mpr ?_))
    rw [h.shaped.bit, h.shaped.hashes]
    simp only [Finset.subset_iff, Prod.forall, mem_marked, mem_covered_marked]
    constructor
    · rintro hit n j ⟨hash, rfl⟩
      exact ⟨hash, hit n hash⟩
    · intro within n hash
      exact (within n _ ⟨hash, rfl⟩).2
  case fused => exact fun _ => fused _
  case clear =>
    intro items f h
    have blank : operations.clear f = empty m k hasher := h.toHolds.clear h.shaped
    rw [blank]
    exact empty_unites pos k hasher

end Bits
end PartitionedBloom

/-- A Bloom filter and a partitioned filter hold, bit by bit, just what their items since the last clearing hit;
so a test succeeds just if the items cover it, which further items do not undo, and the bits are a function of the
set of items. -/
theorem bits_are_unions (m k : Nat) (hasher : Hasher) (requests : List Request) (pos : 0 < m) :
    let s := m ⌈/⌉ k
    let index (item : ByteArray) (n : Nat) := (Probe.narrow (hasher.digest item)).index n s
    let plain := Bloom.empty m k hasher
    let divided := PartitionedBloom.empty m k hasher
    let whole := serve Bloom.operations.step plain requests
    let parts := serve PartitionedBloom.operations.step divided requests
    (∀ event ∈ whole.1 ++ parts.1, ∃ answer, event.2 = .ok answer) ∧
    (m < UInt32.size → plain.positions = fun item => hasher.positions item k m) ∧
    (∀ b < m, whole.2.cells.get b = .ok (if ∃ item ∈ added requests, b ∈ plain.positions item then 1 else 0)) ∧
    HoldsUnion (struck plain.positions) Bloom.operations Bloom.cells Bloom.count plain requests whole.2 ∧
    parts.2.partitions.length = k ∧
    (∀ n (cells : Counters), parts.2.partitions[n]? = some cells →
      (∀ b < s, cells.get b = .ok (if ∃ item ∈ added requests, index item n = b then 1 else 0)) ∧
      (added requests ≠ [] → 1 ≤ cells.nonzero ∧ cells.nonzero ≤ min parts.2.count s)) ∧
    HoldsUnion divided.marked PartitionedBloom.operations PartitionedBloom.partitions PartitionedBloom.count divided
      requests parts.2 := by
  intro s index plain divided whole parts
  have united := Bloom.represents plain pos
  have each := PartitionedBloom.represents pos k hasher
  have fresh : Bloom.Holds plain [] plain := Bloom.empty_holds ..
  have blank : divided.Unites [] divided := PartitionedBloom.empty_unites pos k hasher
  obtain ⟨answers, holds⟩ := united.run fresh fun request (_ : request ∈ requests) => idle_permanent request
  obtain ⟨dividedAnswers, unites⟩ := each.run blank fun request (_ : request ∈ requests) => idle_permanent request
  refine ⟨?_, ?_, ?_, ?_, ?_, ?_, ?_⟩
  · intro event logged
    rcases List.mem_append.mp logged with here | there
    · exact keeping_answers _ [] requests event (answers ▸ here)
    · exact keeping_answers _ [] requests event (dividedAnswers ▸ there)
  · intro small
    funext item
    exact congrArg (fun probe => Probe.positions probe k m) (if_pos small)
  · intro b inside
    have bit := holds.get inside
    simpa only [struck, List.mem_toFinset] using bit
  · exact united.holdsUnion fresh idle_permanent (fun h => h.count) (fun h k same => h.cells_eq k same) requests
  · exact unites.shaped.hashes.trans List.length_replicate
  · intro n cells there
    exact ⟨fun b inside => unites.get there inside, unites.nonzero_bounds there⟩
  · exact each.holdsUnion blank idle_permanent (fun h => h.count) (fun h k same => h.partitions_eq k same) requests

/-- Two items with one bit of the first partition in common, after an item that is cleared. -/
private def sharing : List Request :=
  [.insert (Hasher.dataOf 2 2), .clear, .insert (Hasher.dataOf 1 0), .containsThenInsert (Hasher.dataOf 1 1)]

/-- The cleared item is gone, and one that was never added is covered by the bits of the two. -/
theorem sharing_bits_are_unions :
    let plain := serve Bloom.operations.step (.empty 5 2 .leadingBytes) sharing
    let parts := serve PartitionedBloom.operations.step (.empty 5 2 .leadingBytes) sharing
    0 < 5 ∧ plain.2.count = 2 ∧ plain.2.contains (Hasher.dataOf 1 0) = .ok true ∧ parts.2.partitions.length = 2 ∧
      parts.2.contains (Hasher.dataOf 4 4) = .ok true ∧ parts.2.contains (Hasher.dataOf 2 2) = .ok false := by
  obtain ⟨-, -, -, whole, length, -, each⟩ := bits_are_unions 5 2 .leadingBytes sharing (by decide)
  have first : Hasher.dataOf 1 0 ∈ added sharing := by decide
  have united := (each.contains (Hasher.dataOf 4 4)).trans (congrArg Except.ok (decide_eq_true (by decide)))
  have cleared := (each.contains (Hasher.dataOf 2 2)).trans (congrArg Except.ok (decide_eq_false (by decide)))
  exact ⟨by decide, whole.count, whole.member _ first, length, united, cleared⟩

end Synopsis.Presence
