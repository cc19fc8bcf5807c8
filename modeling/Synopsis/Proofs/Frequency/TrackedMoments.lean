import Synopsis.Proofs.Frequency.HeapOrder
import Synopsis.Proofs.Frequency.TrackedStreams
import Synopsis.Proofs.Hashing.LeadingBytes

/-! The order in which a heavy-hitter tracker lists its entries, and the numbers of their admissions and
refreshments. Popping sifts in a heap that refreshed entries have put out of order, which loses and repeats
nothing. -/
namespace Synopsis.Frequency.HeavyHitters
open Hashing MinHeap

/-- Every addition is counted, every tracked item was counted when it was admitted, and no two admissions or
refreshments have one number. -/
structure Numbered (t : HeavyHitters) (stream : List ByteArray) : Prop where
  total : t.total = stream.length
  positive : ∀ e ∈ t.residents, 1 ≤ e.frequency
  distinct : (t.residents.map Entry.moment).Nodup
  below : ∀ e ∈ t.residents, e.moment < t.moment

/-- Entries are listed in the lexicographic order of frequency and moment. -/
theorem elements_pairwise (t : HeavyHitters) :
    t.elements.Pairwise fun a b => a.frequency ≤ b.frequency := by
  have sorted : t.elements.Pairwise fun a b => (!b.less a) = true := by
    refine List.pairwise_mergeSort (fun a b c first second => ?_) (fun a b => ?_) _
    · rw [Bool.not_eq_true'] at *
      exact Entry.ranks.trans first second
    · cases before : b.less a with
      | true => simp [Entry.ranks.asymm before]
      | false => rfl
  refine sorted.imp fun before => ?_
  rw [Bool.not_eq_true', Entry.less_eq_false] at before
  rcases before with lower | ⟨same, -⟩
  · exact UInt64.le_of_lt lower
  · exact UInt64.le_of_eq same

section Steps
variable {width depth : Nat} {epsilon delta : UInt64} {hasher : Hasher} {t u : HeavyHitters}
  {stream : List ByteArray} {data : ByteArray}

/-- An item has been counted once at least when it has just been added. -/
theorem one_le_latest (rows : 0 < depth) :
    1 ≤ latest hasher width depth (stream ++ [data]) data := by
  have counted : 0 < (data ::ₘ (stream : Multiset ByteArray)).count data :=
    Multiset.count_pos.mpr (Multiset.mem_cons_self data _)
  rw [latest_concat_self]
  exact saturated_le (counted.trans_le (CountMin.count_le_estimate rows data))

theorem latest_le_count (rows : 0 < depth) :
    latest hasher width depth stream data ≤
      saturated (CountMin.estimate hasher width depth stream data) := by
  have shorter := (List.rdropWhile_prefix (fun other => decide (other ≠ data)) stream).sublist
  exact saturated_le (CountMin.estimate_mono rows (Multiset.coe_le.mpr shorter.subperm) data)

theorem Numbered.concat (n : Numbered t stream) (h : Follows width depth epsilon delta hasher t stream)
    (rows : 0 < depth) (run : t.add data = .ok u)
    (change : Change t.limit t.heap ⟨data, latest hasher width depth (stream ++ [data]) data, t.moment⟩ u.heap) :
    Numbered u (stream ++ [data]) := by
  obtain ⟨_, -, -, -, total, moved⟩ := add_eq_ok run
  have counted : u.total = (stream ++ [data]).length := by
    rw [total, n.total, List.length_append, List.length_singleton]
  have later : t.moment ≤ u.moment := by
    rcases moved with ⟨-, -, next⟩ | ⟨-, -, same⟩
    · exact next ▸ Nat.le_succ _
    · exact same.ge
  rcases change.kept h.distinct with ⟨-, same⟩ | ⟨gone, kept, split, result, -⟩
  · have residents : u.residents = t.residents := congrArg entries same
    refine ⟨counted, residents ▸ n.positive, residents ▸ n.distinct, fun e member => ?_⟩
    exact (n.below e (residents ▸ member)).trans_le later
  · have stays {e : Entry} (member : e ∈ kept) : e ∈ t.residents := by
      rw [residents, split]
      exact Multiset.mem_add.mpr (.inr member)
    -- an entry that is new in the heap has taken the next number
    have next : u.moment = t.moment + 1 := by
      rcases moved with ⟨-, -, next⟩ | ⟨-, same, -⟩
      · exact next
      · have inside : ⟨data, latest hasher width depth (stream ++ [data]) data, t.moment⟩ ∈ t.residents := by
          rw [residents, ← same, result]
          exact Multiset.mem_cons_self _ _
        exact absurd (n.below _ inside) (Nat.lt_irrefl _)
    refine ⟨counted, fun e member => ?_, ?_, fun e member => ?_⟩
    · rcases mem_split result member with rfl | old
      · exact one_le_latest rows
      · exact n.positive e (stays old)
    · have distinct := n.distinct
      rw [residents, split, Multiset.map_add] at distinct
      rw [residents, result, Multiset.map_cons, Multiset.nodup_cons]
      refine ⟨fun again => ?_, (Multiset.nodup_add.mp distinct).2.1⟩
      obtain ⟨e, member, same⟩ := Multiset.mem_map.mp again
      exact absurd same (Nat.ne_of_lt (n.below e (stays member)))
    · rw [next]
      rcases mem_split result member with rfl | old
      · exact Nat.lt_succ_self _
      · exact Nat.lt_succ_of_lt (n.below e (stays old))

theorem Numbered.feed {start : HeavyHitters} (h : Follows width depth epsilon delta hasher start [])
    (n : Numbered start []) (inside : 0 < width) (rows : 0 < depth) (fed : feed start stream = .ok t) :
    Numbered t stream := by
  induction stream using List.reverseRecOn generalizing t with
  | nil => exact Except.ok.inj fed ▸ n
  | append_singleton before data ih =>
    obtain ⟨t', fed', -, follows⟩ := h.feed inside rows before
    obtain ⟨u, added, -, change, -⟩ := follows.add inside rows data
    obtain rfl : u = t := Except.ok.inj (added.symm.trans ((foldlM_concat_of_ok fed' data).symm.trans fed))
    exact (ih fed').concat follows rows added change

theorem empty_numbered (sketch : CountMin) (limit : Nat) : Numbered (empty sketch limit) [] :=
  ⟨rfl, fun _ none => absurd none (Multiset.notMem_zero _), Multiset.nodup_zero,
    fun _ none => absurd none (Multiset.notMem_zero _)⟩

end Steps

/-- Whatever has been added and cleared, a tracker has as many entries as there are items to track or as it has
room for, and it lists every one of them once, in the order of their frequencies. The items are different and
were added since the last clearing, and no frequency is zero or above the present estimate. Each entry has its
own number, below the next one. -/
theorem entries_are_distinct_and_ordered (width depth : Nat) (epsilon delta : UInt64) (hasher : Hasher)
    (limit : Nat) (operations : List Operation) (inside : 0 < width) (rows : 0 < depth) (pos : 0 < limit) :
    let stream := additions operations
    ∃ t, run (empty (.empty width depth epsilon delta hasher) limit) operations = .ok t ∧
      t.size = min limit stream.dedup.length ∧ t.total = stream.length ∧
      t.elements.Perm t.heap.toList ∧ t.elements.Pairwise (fun a b => a.frequency ≤ b.frequency) ∧
      (t.elements.map Entry.data).Nodup ∧
      (∀ e ∈ t.elements, e.data ∈ stream ∧ 1 ≤ e.frequency ∧
        ∃ n, t.sketch.count e.data = .ok n ∧ e.frequency ≤ n) ∧
      (t.heap.toList.map Entry.moment).Nodup ∧ ∀ e ∈ t.heap, e.moment < t.moment := by
  intro stream
  have h := empty_follows width depth epsilon delta hasher pos
  obtain ⟨t, fed, limited, follows⟩ := h.feed inside rows stream
  have numbered := (empty_numbered ..).feed h inside rows fed
  refine ⟨t, (run_eq_feed width depth epsilon delta hasher inside rows pos operations).trans fed, ?_,
    numbered.total, List.mergeSort_perm .., elements_pairwise t, ?_, fun e listed => ?_, ?_, fun e held => ?_⟩
  · exact follows.size_eq.trans (congrArg (min · stream.dedup.length) limited)
  · rw [← Multiset.coe_nodup, ← Multiset.map_coe, coe_elements]
    exact follows.distinct
  · have member := mem_elements.mp listed
    refine ⟨follows.seen e member, numbered.positive e member, _, ?_,
      UInt64.le_trans (follows.behind e member) (latest_le_count rows)⟩
    rw [follows.sketch]
    exact CountMin.count_tallied inside e.data
  · exact Multiset.coe_nodup.mp numbered.distinct
  · exact numbered.below e (mem_entries.mpr held)

/-- The refreshed root gives way to the third item, although it is the more frequent of the two. -/
private def churning : List Operation :=
  [.add (Hasher.dataOf 5 0), .clear, .add (Hasher.dataOf 1 0), .add (Hasher.dataOf 2 0), .add (Hasher.dataOf 1 0),
    .add (Hasher.dataOf 3 0), .add (Hasher.dataOf 3 0)]

theorem churned_entries_are_ordered :
    0 < 6 ∧ 0 < 1 ∧ 0 < 2 ∧ ∃ t, run (empty (.empty 6 1 0 0 .leadingBytes) 2) churning = .ok t ∧
      t.size = 2 ∧ t.total = 5 ∧ t.elements = [⟨Hasher.dataOf 2 0, 1, 1⟩, ⟨Hasher.dataOf 3 0, 2, 3⟩] ∧
      t.elements.Pairwise (fun a b => a.frequency ≤ b.frequency) ∧ ∀ e ∈ t.heap, e.moment < t.moment := by
  obtain ⟨t, ran, size, total, -, ordered, -, -, -, below⟩ :=
    entries_are_distinct_and_ordered 6 1 0 0 .leadingBytes 2 churning (by decide) (by decide) (by decide)
  have evaluated : (run (empty (.empty 6 1 0 0 .leadingBytes) 2) churning).map elements =
      .ok [⟨Hasher.dataOf 2 0, 1, 1⟩, ⟨Hasher.dataOf 3 0, 2, 3⟩] := by cbv
  rw [ran] at evaluated
  exact ⟨by decide, by decide, by decide, t, ran, size.trans (by decide), total.trans (by decide),
    Except.ok.inj evaluated, ordered, below⟩

end Synopsis.Frequency.HeavyHitters
