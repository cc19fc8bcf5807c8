import Synopsis.Proofs.Cardinality.Lineages
import Synopsis.Proofs.Frequency.ClearedSketches
import Synopsis.Proofs.Presence.ClearedBlooms
import Synopsis.Proofs.Presence.CuckooCapacity

/-! Every structure that can be cleared is afterwards a new one. -/
namespace Synopsis
open Presence Frequency Cardinality Hashing Randomness

namespace Cardinality.HyperLogLog

/-- What can be done to the registers. -/
inductive Operation where
  | add (data : ByteArray)
  | merge (other : HyperLogLog)
  | clear

def step (s : HyperLogLog) : Operation → HyperLogLog
  | .add data => s.add data
  | .merge other => settled s (s.merge other)
  | .clear => s.clear

/-- No operation changes how many registers there are. -/
theorem clear_step (s : HyperLogLog) (operation : Operation) : (s.step operation).clear = s.clear := by
  cases operation with
  | add data => simp only [step, add, clear, Array.size_modify]
  | merge other =>
    refine settled_of (P := fun t : HyperLogLog => t.clear = s.clear) rfl fun t run => ?_
    obtain ⟨same, rfl⟩ := merge_eq_ok_iff.mp run
    have size : (s.registers.zipWith max other.registers).size = s.registers.size :=
      Array.size_zipWith.trans (Nat.min_eq_left same.le)
    simp only [clear, size]
  | clear => simp only [step, clear, Array.size_replicate]

def lifecycle (c : Config) : Lifecycle Unit HyperLogLog Operation where
  make hasher _ := ofConfig { c with hasher }
  step := step
  withHasher := withHasher
  source _ := ()
  clear := clear

theorem renews (c : Config) : (lifecycle c).Renews := by
  apply Lifecycle.renews_of_clear (empty c.registers.log2)
  case make =>
    intro hasher s run
    obtain ⟨_, valid, run⟩ := bind_eq_ok.mp run
    exact ⟨Except.ok.inj run, fun other => bind_eq_ok.mpr ⟨_, valid, rfl⟩⟩
  case start =>
    intro hasher
    change clear (empty _ _) = _
    simp only [clear, empty, Array.size_replicate]
  case step => exact clear_step
  case withHasher => exact fun s hasher => rfl
  case choice => exact fun hasher other => rfl

end Cardinality.HyperLogLog

/-- Whatever has been done to a structure, failed operations, merges and changes of the hasher included, clearing
leaves what its constructor gives for the same configuration and the hasher chosen last. Where words are drawn at
random, their source stays where it is. -/
theorem cleared_structures_are_new {σ : Type} [Source σ] :
    (∀ c, (Bloom.lifecycle c).Renews) ∧
    (∀ e c, (PartitionedBloom.lifecycle e c).Renews) ∧
    (∀ c, (CountingBloom.lifecycle c).Renews) ∧
    (∀ c, (DeletableBloom.lifecycle c).Renews) ∧
    ((∀ c, (StableBloom.lifecycle σ c).Renews) ∧ ∀ m rate, (StableBloom.unstableLifecycle σ m rate).Renews) ∧
    (∀ c, (ScalableBloom.lifecycle c).Renews) ∧
    (∀ c, (Cuckoo.lifecycle σ c).Renews) ∧
    (∀ c, (Inverse.lifecycle c Inverse.clear).Renews ∧ (Inverse.lifecycle c Inverse.sweep).Renews) ∧
    (∀ c, (CountMin.lifecycle c).Renews) ∧
    (∀ c, (HeavyHitters.lifecycle c).Renews) ∧
    ∀ c, (HyperLogLog.lifecycle c).Renews :=
  ⟨Bloom.renews, PartitionedBloom.renews, CountingBloom.renews, DeletableBloom.renews,
    ⟨StableBloom.renews, StableBloom.unstable_renews⟩, ScalableBloom.renews, Cuckoo.renews,
    fun c => ⟨Inverse.renews c, Inverse.sweep_renews c⟩, CountMin.renews, HeavyHitters.renews, HyperLogLog.renews⟩

/-- The third item opens another filter, and then the hasher is switched. -/
private def growing : List (Action Request) :=
  [.operation (.insert (Hasher.dataOf 0 1)), .operation (.insert (Hasher.dataOf 1 1)),
    .operation (.containsThenInsert (Hasher.dataOf 0 0)), .withHasher .murmur]

private def threeKicks : Cuckoo.Config := { capacity := 1, maxKicks := 3, hasher := .leadingBytes }

private def sameSlots : ChaCha.Stream := ⟨.replicate 8 0, List.replicate 10 0, 0⟩

/-- Both buckets of this item are one, and have no place for the fifth copy. -/
private def crowdingOut : List (Action Request) :=
  List.replicate 5 (.operation (.insert (Hasher.dataOf 0 0))) ++ [.withHasher .murmur]

/-- The table of one configuration after actions, for fingerprints of a given size. -/
private def tableAfter (size : Nat) (actions : List (Action Request)) : Cuckoo ChaCha.Stream :=
  (Cuckoo.lifecycle _ threeKicks).run (threeKicks.table size .leadingBytes sameSlots) actions

private theorem fifth_copy_is_refused : ∀ size ∈ List.range' 1 12,
    ((tableAfter size (crowdingOut.take 4)).insert (Hasher.dataOf 0 0)).1.isOk = false ∧
      (tableAfter size crowdingOut).count = 4 := by
  decide +kernel

/-- An addition, two merges of which the second is refused, and another hasher. -/
private def mingled : List (Action HyperLogLog.Operation) :=
  [.operation (.add (Hasher.dataOf 1 0)), .operation (.merge ((HyperLogLog.empty 4 .murmur).add (Hasher.dataOf 2 0))),
    .operation (.merge (.empty 5 .murmur)), .withHasher .murmur]

/-- A series that has grown, a table that has refused an item, and registers that were merged. -/
theorem changed_structures_are_cleared :
    (let l := ScalableBloom.lifecycle (ScalableBloom.short 0.5)
      ∃ start, l.make .leadingBytes () = .ok start ∧
        let f := l.run start growing
        f.series.map PartitionedBloom.count = [2, 1] ∧ l.make .murmur () = .ok (l.clear f)) ∧
    (let l := Cuckoo.lifecycle ChaCha.Stream threeKicks
      ∃ start, l.make .leadingBytes sameSlots = .ok start ∧
        ((l.run start (crowdingOut.take 4)).insert (Hasher.dataOf 0 0)).1.isOk = false ∧
        let t := l.run start crowdingOut
        t.count = 4 ∧ l.make .murmur (l.source t) = .ok (l.clear t)) ∧
    (let l := HyperLogLog.lifecycle { registers := 2 ^ 4 }
      ∃ s, l.make .leadingBytes () = .ok s ∧ l.clear (l.run s mingled) = .empty 4 .murmur) := by
  obtain ⟨-, -, -, -, -, series, tables, -, -, -, registers⟩ := cleared_structures_are_new (σ := ChaCha.Stream)
  refine ⟨?_, ?_, ?_⟩
  · have evaluated : (ScalableBloom.ofConfig (ScalableBloom.short 0.5)).toOption.map (fun start =>
        ((ScalableBloom.lifecycle (ScalableBloom.short 0.5)).run start growing).series.map PartitionedBloom.count) =
        some [2, 1] := by
      decide +kernel
    obtain ⟨start, made, counts⟩ := toOption_map_eq_some.mp evaluated
    exact ⟨start, made, counts, series (ScalableBloom.short 0.5) .leadingBytes () start made growing⟩
  · have valid : Cuckoo.Config.validate threeKicks = .ok () :=
      bind_eq_ok.mpr ⟨(), rfl, bind_eq_ok.mpr ⟨(), require_eq_ok.mpr (by decide +kernel), rfl⟩⟩
    have made : Cuckoo.ofConfigWith { threeKicks with hasher := .leadingBytes } sameSlots =
        .ok (threeKicks.table (Cuckoo.fingerprintSizeFor threeKicks.falsePositiveRate) .leadingBytes sameSlots) :=
      bind_eq_ok.mpr ⟨(), valid, rfl⟩
    have tables := tables threeKicks .leadingBytes sameSlots _ made crowdingOut
    obtain ⟨size, positive, short, same⟩ := Cuckoo.ofConfigWith_eq_ok made
    rw [same] at made tables
    obtain ⟨refused, four⟩ := fifth_copy_is_refused size (List.mem_range'_1.mpr ⟨positive, Nat.lt_succ_of_le short⟩)
    rw [tableAfter] at refused four
    exact ⟨_, made, refused, four, tables⟩
  · intro l
    have made (hasher : Hasher) : l.make hasher () = .ok (.empty 4 hasher) := HyperLogLog.ofConfig_two_pow (by decide)
    exact ⟨_, made _, Except.ok.inj ((registers _ _ _ _ (made _) mingled).symm.trans (made _))⟩

end Synopsis
