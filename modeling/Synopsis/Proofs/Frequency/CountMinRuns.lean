import Synopsis.Proofs.Folds
import Synopsis.Proofs.Frequency.CountMinCells
import Synopsis.Proofs.Hashing.LeadingBytes

/-! Runs of a Count-Min sketch: what its counters and estimates are after any sequence of additions and
clearings. -/
namespace Synopsis.Frequency.CountMin
open Numeric Hashing

inductive Operation where
  | add (data : ByteArray)
  | addCount (data : ByteArray) (n : UInt64)
  | clear

def step (s : CountMin) : Operation → Outcome CountMin
  | .add data => s.add data
  | .addCount data n => s.addCount data n
  | .clear => .ok s.clear

def run (s : CountMin) (operations : List Operation) : Outcome CountMin := operations.foldlM step s

def weigh (added : List (ByteArray × UInt64)) : Operation → List (ByteArray × UInt64)
  | .add data => added ++ [(data, 1)]
  | .addCount data n => added ++ [(data, n)]
  | .clear => []

/-- The weighted items added since the last clearing. -/
def additions (operations : List Operation) : List (ByteArray × UInt64) := operations.foldl weigh []

/-- The sum of the weights of the items with a property. -/
def weightWhere (p : ByteArray → Prop) [DecidablePred p] (added : List (ByteArray × UInt64)) : Nat :=
  ((added.filter fun a => p a.1).map fun a => a.2.toNat).sum

/-- Every item as often as it weighs. -/
def copies (added : List (ByteArray × UInt64)) : Multiset ByteArray :=
  (added.map fun a => Multiset.replicate a.2.toNat a.1).sum

theorem countP_copies (p : ByteArray → Prop) [DecidablePred p] (added : List (ByteArray × UInt64)) :
    (copies added).countP p = weightWhere p added := by
  induction added with
  | nil => rfl
  | cons a added ih =>
    have copied : (Multiset.replicate a.2.toNat a.1).countP p = if p a.1 then a.2.toNat else 0 := by
      rw [← Multiset.coe_replicate, Multiset.coe_countP, List.countP_replicate]
      simp only [decide_eq_true_eq]
    have split : copies (a :: added) = Multiset.replicate a.2.toNat a.1 + copies added := List.sum_cons
    rw [split, Multiset.countP_add, copied, ih]
    by_cases h : p a.1 <;> simp [weightWhere, h]

theorem copies_concat (added : List (ByteArray × UInt64)) (data : ByteArray) (n : UInt64) :
    copies (added ++ [(data, n)]) = Multiset.replicate n.toNat data + copies added := by
  simp only [copies, List.map_append, List.map_singleton, List.sum_append, List.sum_singleton,
    add_comm]

section Runs
variable {width depth : Nat} {epsilon delta : UInt64} {hasher : Hasher}

theorem run_empty (inside : 0 < width) (operations : List Operation) :
    run (empty width depth epsilon delta hasher) operations =
      .ok (tallied width depth epsilon delta hasher (copies (additions operations))) := by
  induction operations using List.reverseRecOn with
  | nil => exact congrArg Except.ok (tallied_zero ..).symm
  | append_singleton before operation ih =>
    have added : additions (before ++ [operation]) = weigh (additions before) operation := by
      rw [additions, List.foldl_append]
      rfl
    rw [run, foldlM_concat_of_ok ih, added]
    cases operation with
    | add data => rw [weigh, copies_concat]; exact addCount_tallied inside data 1
    | addCount data n => rw [weigh, copies_concat]; exact addCount_tallied inside data n
    | clear => exact congrArg Except.ok (clear_tallied.trans (tallied_zero ..).symm)

theorem run_adds (inside : 0 < width) (held : Multiset ByteArray) (data : ByteArray) (n : Nat) :
    run (tallied width depth epsilon delta hasher held) (List.replicate n (.add data)) =
      .ok (tallied width depth epsilon delta hasher (Multiset.replicate n data + held)) := by
  induction n generalizing held with
  | zero => rw [Multiset.replicate_zero, zero_add]; rfl
  | succ n ih =>
    have first : run (tallied width depth epsilon delta hasher held) [.add data] =
        .ok (tallied width depth epsilon delta hasher (Multiset.replicate 1 data + held)) :=
      (foldlM_singleton ..).trans (addCount_tallied inside data 1)
    rw [Nat.add_comm, List.replicate_add, List.replicate_one]
    refine (foldlM_append_of_ok first _).trans ((ih _).trans ?_)
    rw [Multiset.replicate_add, ← add_assoc, add_comm (Multiset.replicate 1 data)]

/-- Counters and total are the sums of the weights that fall to them, cut off at the largest counter. Hence
no estimate is below the item's own weight or above the total, and the weight of each item is all that the
sketch depends on. -/
theorem counters_are_saturated_sums (width depth : Nat) (epsilon delta : UInt64) (hasher : Hasher)
    (operations : List Operation) (inside : 0 < width) (rows : 0 < depth) :
    let added := additions operations
    ∃ s, run (empty width depth epsilon delta hasher) operations = .ok s ∧
      s.depth = depth ∧
      (∀ row < depth, ∃ counters, s.rows[row]? = some counters ∧ counters.size = width ∧
        ∀ c < width, ∃ counter, counters[c]? = some counter ∧ counter.toNat =
          min counterMax (weightWhere (fun data => column hasher width row data = c) added)) ∧
      s.total.toNat = min counterMax (weightWhere (fun _ => True) added) ∧
      (∀ data, ∃ n, s.count data = .ok n ∧
        min counterMax (weightWhere (data = ·) added) ≤ n.toNat ∧ n ≤ s.total) ∧
      (∀ others, (∀ data, weightWhere (data = ·) (additions others) =
          weightWhere (data = ·) added) →
        run (empty width depth epsilon delta hasher) others = .ok s) ∧
      ∀ data n, run s [.addCount data n] = run s (List.replicate n.toNat (.add data)) := by
  intro added
  refine ⟨_, run_empty inside operations, by simp [CountMin.depth, tallied], ?_, ?_, ?_, ?_, ?_⟩
  · intro row hr
    refine ⟨_, rows_tallied hr, size_tallyRow row, fun c hc => ⟨_, getElem?_tallyRow hc row, ?_⟩⟩
    rw [toNat_saturated, share, countP_copies, Nat.min_comm]
  · rw [← countP_copies, Multiset.countP_True, Nat.min_comm]
    exact toNat_saturated _
  · intro data
    refine ⟨_, count_tallied inside data, ?_, saturated_le (estimate_le_card rows data)⟩
    have least : (copies added).count data ≤ estimate hasher width depth (copies added) data :=
      count_le_estimate rows data
    rw [toNat_saturated, ← countP_copies, Nat.min_comm]
    exact min_le_min_right counterMax least
  · intro others same
    have held : copies (additions others) = copies added := by
      refine Multiset.ext.mpr fun data => ?_
      exact (countP_copies ..).trans ((same data).trans (countP_copies ..).symm)
    rw [run_empty inside, held]
  · intro data n
    rw [run_adds inside]
    exact (foldlM_singleton ..).trans (addCount_tallied inside data n)

/-- The second item overflows the counter that it shares with the first in each of two rows. -/
private def flood : List Operation :=
  [.add (Hasher.dataOf 3 2), .clear, .addCount (Hasher.dataOf 0 2) 18446744073709551615,
    .addCount (Hasher.dataOf 2 2) 5, .add (Hasher.dataOf 1 2)]

theorem full_counters_stay_full :
    ∃ s, run (empty 2 2 0 0 .leadingBytes) flood = .ok s ∧
      s.rows = [#[18446744073709551615, 1], #[18446744073709551615, 1]] ∧
      s.total.toNat = counterMax ∧
      ∃ n, s.count (Hasher.dataOf 0 2) = .ok n ∧ n.toNat = counterMax := by
  obtain ⟨s, run, -, cells, total, between, -, -⟩ :=
    counters_are_saturated_sums 2 2 0 0 .leadingBytes flood (by decide) (by decide)
  obtain ⟨n, estimate, least, -⟩ := between (Hasher.dataOf 0 2)
  refine ⟨s, run, ?_, total, n, estimate, ?_⟩
  · have evaluated : CountMin.run (empty 2 2 0 0 .leadingBytes) flood =
        .ok ⟨2, [#[18446744073709551615, 1], #[18446744073709551615, 1]], 0, 0,
          18446744073709551615, .leadingBytes⟩ := rfl
    exact congrArg CountMin.rows (Except.ok.inj (run.symm.trans evaluated))
  · have bound := n.toNat_lt_size
    exact Nat.le_antisymm (Nat.le_sub_one_of_lt bound) least

end Runs
end Synopsis.Frequency.CountMin
