import Synopsis.Proofs.Cardinality.RegisterMaxima
import Synopsis.Proofs.Frequency.CountMinMerges
import Synopsis.Proofs.Hashing.LeadingBytes

/-! What merged sketches say of two streams. A merge compares the shapes of the sketches and not their
hashers, so that it can be accepted although the sketches place their items differently. -/
namespace Synopsis
open Hashing Frequency Cardinality

namespace Cardinality.HyperLogLog
variable {precision : Nat} {mine theirs : Hasher}

/-- The merge of any two sketches of this precision has the registers of one sketch that was fed the items
of both, although each was filled under its own hasher. -/
def MergeFeeds (precision : Nat) (mine theirs : Hasher) : Prop :=
  ∀ items items', ∃ s, ((empty precision mine).feed items).merge ((empty precision theirs).feed items') =
    .ok s ∧ s.registers = ((empty precision mine).feed (items ++ items')).registers

theorem peak_congr (agree : ∀ data, place mine precision data = place theirs precision data ∧
    rank mine precision data = rank theirs precision data) (items : Multiset ByteArray) :
    peak mine precision items = peak theirs precision items := by
  have places : place mine precision = place theirs precision := funext fun data => (agree data).1
  have ranks : rank mine precision = rank theirs precision := funext fun data => (agree data).2
  funext register
  simp only [peak, places, ranks]

theorem mergeFeeds_iff : MergeFeeds precision mine theirs ↔
    ∀ data, place mine precision data = place theirs precision data ∧
      rank mine precision data = rank theirs precision data := by
  have registers (items items' : List ByteArray) :
      (∃ s, ((empty precision mine).feed items).merge ((empty precision theirs).feed items') = .ok s ∧
        s.registers = ((empty precision mine).feed (items ++ items')).registers) ↔
      ∀ register < 1 <<< precision,
        max (peak mine precision items register) (peak theirs precision items' register) =
          max (peak mine precision items register) (peak mine precision items' register) := by
    simp only [feed_empty, merge_raised, ← Multiset.coe_add, peak_add, Except.ok.injEq,
      exists_eq_left', registers_raised]
  constructor
  · intro feeds data
    -- one item in the other sketch shows where it has been put
    have single := (registers [] [data]).mp (feeds [] [data]) _ (place_lt theirs precision data)
    simp only [Multiset.coe_nil, peak_zero, Nat.zero_max, Multiset.coe_singleton, peak_singleton,
      if_true] at single
    have positive := rank_pos theirs precision data
    by_cases same : place mine precision data = place theirs precision data
    · rw [if_pos same] at single
      exact ⟨same, single.symm⟩
    · rw [if_neg same] at single
      omega
  · intro agree items items'
    refine (registers items items').mpr fun register _ => ?_
    rw [peak_congr agree items']

end Cardinality.HyperLogLog

/-- A merge of sketches is accepted if their shapes are the same. It counts an item of both streams if the
two hashers choose the same counters for it, and registers are those of one sketch of both streams if the
hashers choose the same register and rank for every item; without that some streams are miscounted. -/
theorem merge_is_faithful_iff_hashers_agree (width depth precision : Nat) (mine theirs : Hasher) :
    (∀ s other : CountMin, (∃ t, s.merge other = .ok t) ↔
      s.depth = other.depth ∧ s.width = other.width) ∧
    (∀ s other : HyperLogLog, (∃ t, s.merge other = .ok t) ↔ s.size = other.size) ∧
    (∀ data, CountMin.MergeCounts width depth mine theirs data ↔
      0 < width ∧ 0 < depth ∧ ∀ row < depth,
        CountMin.column mine width row data = CountMin.column theirs width row data) ∧
    (HyperLogLog.MergeFeeds precision mine theirs ↔
      ∀ data, HyperLogLog.place mine precision data = HyperLogLog.place theirs precision data ∧
        HyperLogLog.rank mine precision data = HyperLogLog.rank theirs precision data) :=
  ⟨fun _ _ => CountMin.merge_accepted_iff, fun _ _ => HyperLogLog.merge_accepted_iff,
    fun _ => ⟨CountMin.MergeCounts.agree, fun ⟨inside, rows, agree⟩ =>
      CountMin.mergeCounts_of_agree inside rows agree⟩, HyperLogLog.mergeFeeds_iff⟩

/-- A hasher that sees no more than the first byte. -/
private def firstByte : Hasher := ⟨"first-byte", fun data => .ofBytes (data.data.toList.take 1)⟩

/-- An item whose fourth byte alone is not zero. -/
private def late : ByteArray := ⟨#[0, 0, 0, 128]⟩

/-- The merges are accepted. The item is then missing in one sketch, and in the other it has raised a
register that is not its own. -/
theorem merge_of_other_hasher_is_accepted :
    (∃ other s, CountMin.run (.empty 6 1 0 0 firstByte) [.add late] = .ok other ∧
      (CountMin.empty 6 1 0 0 .leadingBytes).merge other = .ok s ∧ s.count late = .ok 0) ∧
    ∃ s, (HyperLogLog.empty 1 .leadingBytes).merge ((HyperLogLog.empty 1 firstByte).feed [late]) = .ok s ∧
      s.registers = #[32, 0] ∧
      ((HyperLogLog.empty 1 .leadingBytes).feed [late]).registers = #[0, 32] := by
  have filled : CountMin.run (.empty 6 1 0 0 firstByte) [.add late] =
      .ok ⟨6, [#[1, 0, 0, 0, 0, 0]], 0, 0, 1, firstByte⟩ := rfl
  have merged : CountMin.merge ⟨6, [#[0, 0, 0, 0, 0, 0]], 0, 0, 0, .leadingBytes⟩
      ⟨6, [#[1, 0, 0, 0, 0, 0]], 0, 0, 1, firstByte⟩ =
        .ok ⟨6, [#[1, 0, 0, 0, 0, 0]], 0, 0, 1, .leadingBytes⟩ := by
    simp [CountMin.merge, CountMin.depth]
    decide
  have joined : HyperLogLog.merge ⟨1, #[0, 0], .leadingBytes⟩ ⟨1, #[32, 0], firstByte⟩ =
      .ok ⟨1, #[32, 0], .leadingBytes⟩ := by
    simp [HyperLogLog.merge, HyperLogLog.size]
  exact ⟨⟨_, _, filled, merged, rfl⟩, _, joined, rfl, rfl⟩

end Synopsis
