import Synopsis.Proofs.Hashing.LeadingBytes
import Synopsis.Proofs.Hashing.Progressions
import Synopsis.Proofs.Presence.ItemBits

/-! The first insertion into a filter. The hash functions of an item may lead to fewer positions than there are
functions: a Bloom filter sets one bit for each position, and a deletable filter gives a region up where one comes
twice. -/
namespace Synopsis.Presence
open Hashing Packed
open Counters (Sound support)

section Reach
variable {m : Nat} (k : Nat) (hasher : Hasher) (data : ByteArray)

theorem Bloom.positions_of_lt (small : m < UInt32.size) :
    (Bloom.empty m k hasher).positions data = (Probe.narrow (hasher.digest data)).positions k m :=
  congrArg (fun probe => Probe.positions probe k m) (if_pos small)

theorem Bloom.positions_of_ge (large : UInt32.size ≤ m) :
    (Bloom.empty m k hasher).positions data = (Probe.wide (hasher.digest data)).positions k m :=
  congrArg (fun probe => Probe.positions probe k m) (if_neg (Nat.not_lt.mpr large))

end Reach

theorem Bloom.insert_empty {m : Nat} (pos : 0 < m) (k : Nat) (hasher : Hasher) (data : ByteArray) :
    let start := Bloom.empty m k hasher
    ∃ g, start.insert data = .ok g ∧ g.cells.nonzero = (start.positions data).toFinset.card := by
  intro start
  obtain ⟨g, run, holds⟩ := (Bloom.represents start pos).insert (Bloom.empty_holds m k hasher) data
  refine ⟨g, run, ?_⟩
  rw [holds.sound.nonzero, holds.support, covered_concat, covered, List.toFinset_nil, Finset.biUnion_empty,
    Finset.empty_union]
  rfl

namespace DeletableBloom

/-- The bits at the positions `done` are set, and all regions are spared just if no position has come twice. -/
structure Marks (size regionSize flags : Nat) (done : List Nat) (state : Counters × Counters) : Prop extends
    Flagged size regionSize state where
  flags : state.2.Sound flags 1
  bits : state.1.support = done.toFinset
  spared : state.2.support = ∅ ↔ done.Nodup

section Marking
variable {size regionSize flags : Nat} {done : List Nat} {state : Counters × Counters}

theorem Marks.step (h : Marks size regionSize flags done state) {i : Nat} (inside : i < size) :
    ∃ next, markOrSet regionSize state i = .ok next ∧ Marks size regionSize flags (done ++ [i]) next := by
  obtain ⟨cells, collisions⟩ := state
  have place : i < cells.size := h.sound.size.symm ▸ inside
  have region : i / regionSize < collisions.size := h.regions i inside
  have bit : cells.read i = if i ∈ done then 1 else 0 := by
    simpa only [h.bits, List.mem_toFinset] using h.sound.bit inside
  have more : (done ++ [i]).Nodup ↔ i ∉ done ∧ done.Nodup := by rw [← List.concat_eq_append, List.nodup_concat]
  have listed : (done ++ [i]).toFinset = Insert.insert i done.toFinset := by
    ext j
    simp
  by_cases again : i ∈ done
  · rw [if_pos again] at bit
    have top : 0 < collisions.max := h.flags.max_pos Nat.one_pos
    refine ⟨_, markOrSet_of_set place region bit, ⟨h.sound, h.regions⟩, h.flags.write _ _, ?_, ?_⟩
    · rw [listed, Finset.insert_eq_of_mem (List.mem_toFinset.mpr again)]
      exact h.bits
    · rw [Counters.support_write region (min_le_right ..) (lt_min Nat.one_pos top), more]
      exact iff_of_false (Finset.insert_ne_empty _ _) fun both => both.1 again
  · rw [if_neg again] at bit
    have top : 0 < cells.max := h.sound.max_pos Nat.one_pos
    have unset : cells.read i ≠ 1 := by omega
    refine ⟨_, markOrSet_of_unset place unset, ⟨h.sound.write _ _, h.regions⟩, h.flags, ?_, ?_⟩
    · rw [listed, Counters.support_write place (min_le_right ..) (lt_min Nat.one_pos top)]
      exact congrArg (Insert.insert i) h.bits
    · rw [more, and_iff_right again]
      exact h.spared

theorem marks_all {positions : List Nat} (h : Marks size regionSize flags [] state)
    (inside : ∀ i ∈ positions, i < size) :
    ∃ next, positions.foldlM (markOrSet regionSize) state = .ok next ∧ Marks size regionSize flags positions next :=
  foldlM_keeps h fun _ i _ listed marks => marks.step (inside i listed)

end Marking

theorem insert_empty {m : Nat} (pos : 0 < m) (regions k : Nat) (hasher : Hasher) (data : ByteArray) :
    let start := DeletableBloom.empty (.split (m + regions) regions) regions k hasher
    ∃ g, start.insert data = .ok g ∧ (0 < g.collidedRegions ↔ ¬ (start.positions data).Nodup) := by
  intro start
  have size : start.cells.size = m := Nat.add_sub_cancel m regions
  have fresh : Marks start.cells.size start.regionSize start.collisions.size [] (start.cells, start.collisions) := by
    have holds := empty_holds m regions k hasher
    refine ⟨⟨holds.sound, holds.regions⟩, Counters.zeros_sound .., ?_, ?_⟩
    · exact Counters.support_zeros ..
    · exact iff_of_true (Counters.support_zeros ..) List.nodup_nil
  obtain ⟨⟨cells, collisions⟩, run, marks⟩ := marks_all fresh (positions_lt (size.symm ▸ pos) data)
  refine ⟨{ start with cells, collisions, count := start.count + 1 }, ?_, ?_⟩
  · rw [DeletableBloom.insert, run]
    rfl
  · change 0 < collisions.nonzero ↔ _
    rw [marks.flags.nonzero, Finset.card_pos, Finset.nonempty_iff_ne_empty, Ne, marks.spared]

end DeletableBloom

/-- A position comes twice just if there are fewer positions than hash functions. -/
theorem nodup_positions_iff {p : Probe} {m k : Nat} (exact : p.Exact k) (pos : 0 < m) :
    (p.positions k m).Nodup ↔ k ≤ Probe.period p.stride.toNat m := by
  have different := exact.card_positions pos
  rw [← Multiset.coe_nodup, ← Multiset.toFinset_card_eq_card_iff_nodup, Multiset.coe_card, Probe.length_positions,
    ← min_eq_left_iff, ← different]
  rfl

/-- The positions of an item are those of its two 32-bit words in exact arithmetic, as far as one step beyond the
number of words, and as many of them differ as there are hash functions, up to the period of the words. So many bits
does the first insertion into a Bloom filter set, and the first insertion into a deletable filter gives regions up
just if there are more hash functions. A Bloom filter beyond the reach of 32-bit words reads the two halves of the
digest instead, in arithmetic that wraps. -/
theorem first_insertion_sets_different_positions (lower upper : UInt32) (m k : Nat) (pos : 0 < m)
    (few : k ≤ UInt32.size + 1) :
    let words := Probe.ofWords lower upper
    let period := m / upper.toNat.gcd m
    words.positions? k m = .ok (words.positions k m) ∧
    words.positions k m = (List.range k).map (fun i => (lower.toNat + upper.toNat * i) % m) ∧
    (words.positions k m).toFinset.card = min k period ∧
    ∀ (hasher : Hasher) (data : ByteArray),
      let digest := hasher.digest data
      digest.word = lower → digest.upperWord = upper →
      (∃ g, (Bloom.empty m k hasher).insert data = .ok g ∧
        (m < UInt32.size → g.cells.nonzero = min k period) ∧
        (UInt32.size ≤ m →
          let term (i : Nat) := digest.low.toNat + digest.high.toNat * i
          g.cells.nonzero = ((List.range k).map fun i => term i % UInt64.size % m).toFinset.card ∧
          ((∀ i < k, term i < UInt64.size) → g.cells.nonzero = min k (m / digest.high.toNat.gcd m)))) ∧
      ∀ regions, ∃ g, (DeletableBloom.empty (.split (m + regions) regions) regions k hasher).insert data = .ok g ∧
        (0 < g.collidedRegions ↔ period < k) := by
  intro words period
  have exact : words.Exact k := Probe.ofWords_exact lower upper few
  have stride : words.stride.toNat = upper.toNat := UInt32.toNat_toUInt64 upper
  have different : (words.positions k m).toFinset.card = min k period := by
    rw [exact.card_positions pos, stride, Probe.period]
  refine ⟨Probe.positions?_eq words k pos, ?_, different, ?_⟩
  · rw [exact.positions_eq, stride]
    simp only [words, Probe.ofWords, UInt32.toNat_toUInt64]
  · rintro hasher data digest rfl rfl
    have narrow : Probe.narrow digest = words := Probe.narrow_eq digest
    constructor
    · obtain ⟨g, run, bits⟩ := Bloom.insert_empty pos k hasher data
      refine ⟨g, run, fun small => ?_, fun large => ?_⟩
      · rw [bits, Bloom.positions_of_lt k hasher data small, narrow, different]
      · intro term
        rw [bits, Bloom.positions_of_ge k hasher data large]
        have unwrapped (exact : ∀ i < k, term i < UInt64.size) : (Probe.wide digest).Exact k := exact
        exact ⟨by rw [Probe.positions_eq]; rfl, fun exact => (unwrapped exact).card_positions pos⟩
    · intro regions
      obtain ⟨g, run, collided⟩ := DeletableBloom.insert_empty pos regions k hasher data
      have size : m + regions - regions = m := Nat.add_sub_cancel m regions
      have positions : (DeletableBloom.empty (.split (m + regions) regions) regions k hasher).positions data =
          words.positions k m := by
        change (Probe.narrow digest).positions k (m + regions - regions) = _
        rw [size, narrow]
      refine ⟨g, run, collided.trans ?_⟩
      rw [positions, nodup_positions_iff exact pos, stride, Probe.period, Nat.not_le]

/-- Both words are the largest, and they have a divisor in common with six positions. -/
private def largest : ByteArray := ⟨#[255, 255, 255, 255, 255, 255, 255, 255]⟩

theorem largest_words_set_two_bits :
    let k := UInt32.size + 1
    0 < 6 ∧ k ≤ UInt32.size + 1 ∧
      (Hasher.leadingBytes.digest largest).word = 0xffffffff ∧
      (Hasher.leadingBytes.digest largest).upperWord = 0xffffffff ∧
      ((Probe.ofWords 0xffffffff 0xffffffff).positions k 6).toFinset.card = 2 ∧
      (∃ g, (Bloom.empty 6 k .leadingBytes).insert largest = .ok g ∧ g.cells.nonzero = 2) ∧
      ∃ g, (DeletableBloom.empty (.split (6 + 4) 4) 4 k .leadingBytes).insert largest = .ok g ∧
        0 < g.collidedRegions := by
  intro k
  have lower : (Hasher.leadingBytes.digest largest).word = 0xffffffff := by decide
  have upper : (Hasher.leadingBytes.digest largest).upperWord = 0xffffffff := by decide
  have period : 6 / (0xffffffff : UInt32).toNat.gcd 6 = 2 := by decide
  have least : min k 2 = 2 := by decide
  obtain ⟨-, -, different, inserted⟩ :=
    first_insertion_sets_different_positions 0xffffffff 0xffffffff 6 k (by decide) le_rfl
  obtain ⟨⟨g, run, bits, -⟩, regions⟩ := inserted .leadingBytes largest lower upper
  obtain ⟨f, marked, collided⟩ := regions 4
  rw [period, least] at different bits
  rw [period] at collided
  exact ⟨by decide, le_rfl, lower, upper, different, ⟨g, run, bits (by decide)⟩, f, marked, collided.mpr (by decide)⟩

/-- The lower word is zero and the upper one is one, but the halves of the digest are `2 ^ 32` and zero. -/
theorem one_bit_is_set_beyond_words :
    let digest := Hasher.leadingBytes.digest (Hasher.dataOf 0 1)
    digest.word = 0 ∧ digest.upperWord = 1 ∧
      ((Probe.ofWords 0 1).positions 2 UInt32.size).toFinset.card = 2 ∧
      min 2 (UInt32.size / (1 : UInt32).toNat.gcd UInt32.size) = 2 ∧
      ∃ g, (Bloom.empty UInt32.size 2 .leadingBytes).insert (Hasher.dataOf 0 1) = .ok g ∧ g.cells.nonzero = 1 := by
  intro digest
  obtain ⟨g, run, bits⟩ := Bloom.insert_empty (by decide : 0 < UInt32.size) 2 .leadingBytes (Hasher.dataOf 0 1)
  have same : (Probe.wide digest).positions 2 UInt32.size = [0, 0] := by decide
  rw [Bloom.positions_of_ge 2 .leadingBytes (Hasher.dataOf 0 1) le_rfl] at bits
  refine ⟨by decide, by decide, by decide, by decide, g, run, bits.trans ?_⟩
  exact congrArg (fun positions : List Nat => positions.toFinset.card) same

end Synopsis.Presence
