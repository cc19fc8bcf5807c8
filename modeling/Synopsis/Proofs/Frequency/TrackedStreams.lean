import Synopsis.Proofs.Folds
import Synopsis.Proofs.Frequency.TrackedEntries

/-! What a heavy-hitter tracker holds along a stream of additions, whatever order its heap is in. -/
namespace Synopsis.Frequency.HeavyHitters
open Hashing MinHeap

inductive Operation where
  | add (data : ByteArray)
  | clear

def step (t : HeavyHitters) : Operation → Outcome HeavyHitters
  | .add data => t.add data
  | .clear => .ok t.clear

def run (t : HeavyHitters) (operations : List Operation) : Outcome HeavyHitters :=
  operations.foldlM step t

def feed (t : HeavyHitters) (stream : List ByteArray) : Outcome HeavyHitters := stream.foldlM add t

def record (sofar : List ByteArray) : Operation → List ByteArray
  | .add data => sofar ++ [data]
  | .clear => []

/-- The items added since the last clearing. -/
def additions (operations : List Operation) : List ByteArray := operations.foldl record []

/-- The estimate of an item right after its last addition. -/
def latest (hasher : Hasher) (width depth : Nat) (stream : List ByteArray) (data : ByteArray) : UInt64 :=
  saturated (CountMin.estimate hasher width depth (stream.rdropWhile fun other => other ≠ data) data)

/-- What a tracker holds after a stream, whatever its heap looks like. -/
structure Follows (width depth : Nat) (epsilon delta : UInt64) (hasher : Hasher) (t : HeavyHitters)
    (stream : List ByteArray) : Prop where
  sketch : t.sketch = .tallied width depth epsilon delta hasher stream
  pos : 0 < t.limit
  bounded : t.heap.size ≤ t.limit
  distinct : t.items.Nodup
  seen : ∀ e ∈ t.residents, e.data ∈ stream
  behind : ∀ e ∈ t.residents, e.frequency ≤ latest hasher width depth stream e.data
  roomy : t.heap.size < t.limit → (∀ data ∈ stream, data ∈ t.items) ∧
    ∀ e ∈ t.residents, e.frequency = latest hasher width depth stream e.data

section Latest
variable {hasher : Hasher} {width depth : Nat} {stream : List ByteArray} {data other : ByteArray}

theorem latest_concat_self :
    latest hasher width depth (stream ++ [data]) data =
      saturated (CountMin.estimate hasher width depth (data ::ₘ stream) data) := by
  rw [latest, List.rdropWhile_concat_neg _ _ _ (by simp)]
  congr 2
  exact Multiset.coe_eq_coe.mpr (List.perm_append_singleton data stream)

theorem latest_concat_of_ne (h : other ≠ data) :
    latest hasher width depth (stream ++ [data]) other = latest hasher width depth stream other := by
  rw [latest, List.rdropWhile_concat_pos _ _ _ (by simpa using h.symm)]
  rfl

theorem latest_le_concat (rows : 0 < depth) :
    latest hasher width depth stream data ≤ latest hasher width depth (stream ++ [data]) data := by
  rw [latest_concat_self]
  refine saturated_le (CountMin.estimate_mono rows ?_ data)
  have shorter := (List.rdropWhile_prefix (fun other => decide (other ≠ data)) stream).sublist
  exact (Multiset.coe_le.mpr shorter.subperm).trans (Multiset.le_cons_self _ _)

end Latest

section Steps
variable {width depth : Nat} {epsilon delta : UInt64} {hasher : Hasher} {t u : HeavyHitters}
  {stream : List ByteArray} {data : ByteArray} {moment : Nat}

theorem Follows.concat (h : Follows width depth epsilon delta hasher t stream) (rows : 0 < depth)
    (limit : u.limit = t.limit)
    (sketch : u.sketch = .tallied width depth epsilon delta hasher (data ::ₘ stream))
    (change : Change t.limit t.heap ⟨data, latest hasher width depth (stream ++ [data]) data, moment⟩
      u.heap) :
    Follows width depth epsilon delta hasher u (stream ++ [data]) := by
  refine ⟨?_, limit ▸ h.pos, limit ▸ change.size_le h.bounded, change.distinct h.distinct, ?_, ?_, ?_⟩
  · rw [sketch]
    congr 1
    exact Multiset.coe_eq_coe.mpr (List.perm_append_singleton data stream).symm
  · intro e member
    rcases change.mem h.distinct member with rfl | ⟨held, -⟩
    · exact List.mem_append_right _ List.mem_cons_self
    · exact List.mem_append_left _ (h.seen e held)
  · intro e member
    rcases change.mem h.distinct member with rfl | ⟨held, -⟩
    · exact UInt64.le_refl _
    · refine UInt64.le_trans (h.behind e held) ?_
      by_cases same : e.data = data
      · exact same ▸ latest_le_concat rows
      · rw [latest_concat_of_ne same]
        exact UInt64.le_refl _
  · intro room
    rw [limit] at room
    obtain ⟨before, own, stay⟩ := change.roomy room
    obtain ⟨all, current⟩ := h.roomy before
    refine ⟨fun other member => ?_, fun e member => ?_⟩
    · rcases List.mem_append.mp member with earlier | last
      · exact stay other (all other earlier)
      · exact List.mem_singleton.mp last ▸ own
    · rcases change.mem h.distinct member with rfl | ⟨held, apart | ⟨refused, -⟩⟩
      · rfl
      · rw [latest_concat_of_ne apart]
        exact current e held
      · exact absurd refused.full (Nat.not_le_of_lt before)

/-- Items are tracked as far as there is room. -/
theorem Follows.size_eq (h : Follows width depth epsilon delta hasher t stream) :
    t.heap.size = min t.limit stream.dedup.length := by
  have size : t.items.card = t.heap.size := (Multiset.card_map ..).trans (card_entries _)
  have inside : t.items ≤ stream.dedup := by
    refine (Multiset.le_iff_subset h.distinct).mpr fun data member => ?_
    obtain ⟨e, held, rfl⟩ := mem_items.mp member
    exact List.mem_dedup.mpr (h.seen e held)
  have few : t.items.card ≤ stream.dedup.length := Multiset.card_le_card inside
  have bounded := h.bounded
  by_cases room : t.heap.size < t.limit
  · have all : (stream.dedup : Multiset ByteArray) ≤ t.items :=
      (Multiset.le_iff_subset (Multiset.coe_nodup.mpr stream.nodup_dedup)).mpr fun data member =>
        (h.roomy room).1 data (List.mem_dedup.mp member)
    have many : stream.dedup.length ≤ t.items.card := Multiset.card_le_card all
    omega
  · omega

theorem Follows.add (h : Follows width depth epsilon delta hasher t stream) (inside : 0 < width)
    (rows : 0 < depth) (data : ByteArray) :
    ∃ u, t.add data = .ok u ∧ u.limit = t.limit ∧
      Change t.limit t.heap ⟨data, latest hasher width depth (stream ++ [data]) data, t.moment⟩ u.heap ∧
      Follows width depth epsilon delta hasher u (stream ++ [data]) := by
  obtain ⟨u, run, limit, sketch, change⟩ := add_change h.pos inside h.sketch data
  rw [← latest_concat_self] at change
  exact ⟨u, run, limit, change, h.concat rows limit sketch change⟩

/-- Additions never fail, and the tracker follows them. -/
theorem Follows.feed {start : HeavyHitters} (h : Follows width depth epsilon delta hasher start [])
    (inside : 0 < width) (rows : 0 < depth) (stream : List ByteArray) :
    ∃ t, feed start stream = .ok t ∧ t.limit = start.limit ∧
      Follows width depth epsilon delta hasher t stream := by
  induction stream using List.reverseRecOn with
  | nil => exact ⟨start, rfl, rfl, h⟩
  | append_singleton before data ih =>
    obtain ⟨t, run, limit, follows⟩ := ih
    obtain ⟨u, added, same, -, next⟩ := follows.add inside rows data
    exact ⟨u, (foldlM_concat_of_ok run data).trans added, same.trans limit, next⟩

theorem empty_follows (width depth : Nat) (epsilon delta : UInt64) (hasher : Hasher) {limit : Nat}
    (pos : 0 < limit) :
    Follows width depth epsilon delta hasher (empty (.empty width depth epsilon delta hasher) limit)
      [] :=
  ⟨(CountMin.tallied_zero ..).symm, pos, Nat.zero_le _, Multiset.nodup_zero,
    fun _ none => absurd none (Multiset.notMem_zero _),
    fun _ none => absurd none (Multiset.notMem_zero _),
    fun _ => ⟨fun _ none => absurd none List.not_mem_nil,
      fun _ none => absurd none (Multiset.notMem_zero _)⟩⟩

/-- Clearing starts the stream over. -/
theorem run_eq_feed (width depth : Nat) (epsilon delta : UInt64) (hasher : Hasher) {limit : Nat}
    (inside : 0 < width) (rows : 0 < depth) (pos : 0 < limit) (operations : List Operation) :
    run (empty (.empty width depth epsilon delta hasher) limit) operations =
      feed (empty (.empty width depth epsilon delta hasher) limit) (additions operations) := by
  induction operations using List.reverseRecOn with
  | nil => rfl
  | append_singleton before operation ih =>
    obtain ⟨t, fed, limited, follows⟩ :=
      (empty_follows width depth epsilon delta hasher pos).feed inside rows (additions before)
    have last : run (empty (.empty width depth epsilon delta hasher) limit) (before ++ [operation]) =
        step t operation := foldlM_concat_of_ok (ih.trans fed) operation
    have sofar : additions (before ++ [operation]) = record (additions before) operation := by
      rw [additions, List.foldl_append]
      rfl
    rw [last, sofar]
    cases operation with
    | add data => exact (foldlM_concat_of_ok fed data).symm
    | clear =>
      refine congrArg Except.ok ?_
      rw [clear, follows.sketch, CountMin.clear_tallied, limited]
      rfl

end Steps

end Synopsis.Frequency.HeavyHitters
