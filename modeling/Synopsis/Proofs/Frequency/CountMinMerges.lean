import Synopsis.Proofs.Frequency.CountMinRuns
import Synopsis.Proofs.Frequency.CountMinShapes

/-! Merged Count-Min sketches. The counters of both are added place by place, whether or not the two
sketches put their items into the same places. -/
namespace Synopsis.Frequency.CountMin
open Numeric Hashing

section Loads
variable {width depth : Nat} {epsilon delta epsilon' delta' : UInt64} {hasher hasher' : Hasher}

theorem loadedRow_add (left right : Nat → Nat) :
    Array.zipWith saturatingAdd (loadedRow width left) (loadedRow width right) =
      loadedRow width fun column => left column + right column := by
  refine Array.ext (by simp [loadedRow]) fun c _ _ => ?_
  simp only [loadedRow, Array.getElem_zipWith, Array.getElem_ofFn, saturatingAdd_saturated]

theorem depth_loaded (load : Nat → Nat → Nat) (total : Nat) :
    (loaded width depth epsilon delta hasher load total).depth = depth := by
  simp [CountMin.depth, loaded]

theorem merge_loaded (left right : Nat → Nat → Nat) (n m : Nat) :
    (loaded width depth epsilon delta hasher left n).merge
        (loaded width depth epsilon' delta' hasher' right m) =
      .ok (loaded width depth epsilon delta hasher (fun row c => left row c + right row c) (n + m)) := by
  have rows : ((List.range' 0 depth).map fun row => loadedRow width (left row)).zipWith
      (Array.zipWith saturatingAdd) ((List.range' 0 depth).map fun row => loadedRow width (right row)) =
        (List.range' 0 depth).map fun row => loadedRow width fun c => left row c + right row c := by
    rw [List.zipWith_map, List.zipWith_self]
    exact List.map_congr_left fun row _ => loadedRow_add (left row) (right row)
  refine merge_eq_ok_iff.mpr ⟨(depth_loaded ..).trans (depth_loaded ..).symm, rfl, ?_⟩
  simp only [loaded, rows, saturatingAdd_saturated]

/-- Under one hasher the merged sketch is that of the items of both. -/
theorem merge_tallied (a b : Multiset ByteArray) :
    (tallied width depth epsilon delta hasher a).merge (tallied width depth epsilon' delta' hasher b) =
      .ok (tallied width depth epsilon delta hasher (a + b)) := by
  have shares : share hasher width (a + b) = fun row c => share hasher width a row c + share hasher width b row c :=
    funext fun row => funext fun c => share_add a b row c
  refine (merge_loaded (share hasher width a) (share hasher width b) a.card b.card).trans ?_
  rw [← shares, ← Multiset.card_add]
  rfl

end Loads

/-- For an item, the merge of any two sketches of this shape is accepted and estimates no fewer copies
than were added to both, although each was filled under its own hasher. -/
def MergeCounts (width depth : Nat) (mine theirs : Hasher) (data : ByteArray) : Prop :=
  ∀ epsilon delta epsilon' delta' operations operations', ∃ s other t n,
    run (empty width depth epsilon delta mine) operations = .ok s ∧
    run (empty width depth epsilon' delta' theirs) operations' = .ok other ∧
    s.merge other = .ok t ∧ t.count data = .ok n ∧
    min counterMax (weightWhere (data = ·) (additions operations) +
      weightWhere (data = ·) (additions operations')) ≤ n.toNat

section Hashers
variable {width depth : Nat} {mine theirs : Hasher} {data : ByteArray}

theorem mergeCounts_of_agree (inside : 0 < width) (rows : 0 < depth)
    (agree : ∀ row < depth, column mine width row data = column theirs width row data) :
    MergeCounts width depth mine theirs data := by
  intro epsilon delta epsilon' delta' operations operations'
  refine ⟨_, _, _, _, run_empty inside operations, run_empty inside operations', merge_loaded ..,
    count_loaded inside _ _ data, ?_⟩
  rw [toNat_saturated, Nat.min_comm, ← countP_copies, ← countP_copies]
  refine min_le_min_right counterMax ((le_leastLoad_iff rows).mpr fun row hr => ?_)
  exact Nat.add_le_add (count_le_share row data) (agree row hr ▸ count_le_share row data)

/-- One copy in the other sketch tells whether the item's places are the same. -/
theorem MergeCounts.agree (h : MergeCounts width depth mine theirs data) :
    0 < width ∧ 0 < depth ∧
      ∀ row < depth, column mine width row data = column theirs width row data := by
  obtain ⟨s, other, t, n, first, second, merged, estimate, least⟩ := h 0 0 0 0 [] [.add data]
  have one : min counterMax (weightWhere (data = ·) (additions []) +
      weightWhere (data = ·) (additions [.add data])) = 1 := by
    simp [additions, weigh, weightWhere, counterMax]
  rw [one] at least
  have rows : 0 < depth := by
    by_contra none
    have bare : s.depth = 0 := by
      cases first
      simpa [CountMin.depth, empty] using none
    cases estimate.symm.trans (count_of_no_rows ((depth_merge merged).trans bare) data)
    exact absurd least (by decide)
  have inside : 0 < width := by
    by_contra none
    have fails : (empty width depth 0 0 theirs).addCount data 1 = .error .zeroModulus :=
      (fails_of_no_columns (Nat.eq_zero_of_not_pos none)
        (by simpa [CountMin.depth, empty] using rows) data).1 1
    cases second.symm.trans ((foldlM_singleton ..).trans fails)
  refine ⟨inside, rows, fun row hr => ?_⟩
  cases first.symm.trans (run_empty inside [])
  cases second.symm.trans (run_empty inside [.add data])
  cases merged.symm.trans (merge_loaded ..)
  cases estimate.symm.trans (count_loaded inside _ _ data)
  rw [toNat_saturated] at least
  have shared := (le_leastLoad_iff rows).mp (least.trans (min_le_left ..)) row hr
  have none : copies (additions []) = 0 := rfl
  have copy : copies (additions [.add data]) = Multiset.replicate 1 data := by
    simp [additions, weigh, copies]
  simp only [none, copy, share_replicate] at shared
  by_contra apart
  rw [if_neg (Ne.symm apart)] at shared
  exact absurd shared (by simp [share])

end Hashers
end Synopsis.Frequency.CountMin
