import Synopsis.Proofs.Frequency.HeaviestItems
import Synopsis.Proofs.Frequency.TrackedMoments

/-! When a tracked item is refreshed as it is seen again. The root of a full heap is asked before the item is
looked up, so that a root above the item's own new estimate keeps the refreshment out. -/
namespace Synopsis.Frequency.HeavyHitters
open Numeric Hashing MinHeap

/-- There is room, or the root is not above the frequency. -/
def Reaches (t : HeavyHitters) (frequency : UInt64) : Prop :=
  t.size < t.limit ∨ ∃ root, t.heap[0]? = some root ∧ root.frequency ≤ frequency

/-- After the stream, every tracked item is listed with the estimate right after its last addition. -/
def Current (start : HeavyHitters) (stream : List ByteArray) : Prop :=
  ∃ t, feed start stream = .ok t ∧ ∀ e ∈ t.elements, lastEstimate start stream e.data = .ok e.frequency

/-- After the stream, one more addition of the item reaches the root if the item is tracked. -/
def Readmits (start : HeavyHitters) (stream : List ByteArray) (data : ByteArray) : Prop :=
  ∃ t n, feed start stream = .ok t ∧ lastEstimate start (stream ++ [data]) data = .ok n ∧
    (data ∈ t.elements.map Entry.data → t.Reaches n)

section Steps
variable {width depth : Nat} {epsilon delta : UInt64} {hasher : Hasher} {t u start : HeavyHitters}
  {stream : List ByteArray} {data : ByteArray} {moment : Nat} {entry : Entry}

theorem refused_iff_not_reaches (pos : 0 < t.limit) :
    Refused t.limit t.heap entry ↔ ¬t.Reaches entry.frequency :=
  (refused_iff pos).trans (not_congr (admits_iff pos _))

/-- An addition raises the item's own estimate, unless its counters are full. -/
theorem latest_lt_concat (rows : 0 < depth) {bound : UInt64}
    (below : latest hasher width depth (stream ++ [data]) data < bound) :
    latest hasher width depth stream data < latest hasher width depth (stream ++ [data]) data := by
  have one : 1 ≤ CountMin.estimate hasher width depth {data} data :=
    (Multiset.count_singleton_self data).ge.trans (CountMin.count_le_estimate rows data)
  have more : CountMin.estimate hasher width depth stream data + 1 ≤
      CountMin.estimate hasher width depth (data ::ₘ stream) data := by
    rw [← Multiset.singleton_add, Nat.add_comm]
    exact (Nat.add_le_add_right one _).trans (CountMin.estimate_add_le rows {data} stream data)
  have before : latest hasher width depth stream data ≤
      saturated (CountMin.estimate hasher width depth stream data) := latest_le_count rows
  have most := bound.toNat_lt_size
  rw [latest_concat_self] at below ⊢
  rw [UInt64.lt_iff_toNat_lt, toNat_saturated] at below ⊢
  rw [UInt64.le_iff_toNat_le, toNat_saturated] at before
  simp only [counterMax] at *
  omega

theorem count_le_latest (rows : 0 < depth) (stream : List ByteArray) (data : ByteArray) :
    min counterMax (stream.countP (data = ·)) ≤ (latest hasher width depth stream data).toNat := by
  induction stream using List.reverseRecOn with
  | nil => exact Nat.zero_le _
  | append_singleton before last ih =>
    by_cases same : data = last
    · subst same
      have counted : (before ++ [data]).countP (data = ·) =
          (data ::ₘ (before : Multiset ByteArray)).count data := by
        rw [Multiset.count_cons_self, Multiset.count, Multiset.coe_countP, List.countP_append,
          List.countP_singleton, if_pos (decide_eq_true rfl)]
      rw [latest_concat_self, toNat_saturated, Nat.min_comm, counted]
      exact min_le_min_right counterMax (CountMin.count_le_estimate rows data)
    · rw [latest_concat_of_ne same, List.countP_append, List.countP_singleton, if_neg (by simpa using same)]
      exact ih

/-- An addition keeps the listed frequencies up to date exactly where it reaches the root. -/
theorem Follows.current_concat (h : Follows width depth epsilon delta hasher t stream) (rows : 0 < depth)
    (change : Change t.limit t.heap ⟨data, latest hasher width depth (stream ++ [data]) data, moment⟩ u.heap)
    (current : ∀ e ∈ t.residents, e.frequency = latest hasher width depth stream e.data) :
    (∀ e ∈ u.residents, e.frequency = latest hasher width depth (stream ++ [data]) e.data) ↔
      (data ∈ t.items → t.Reaches (latest hasher width depth (stream ++ [data]) data)) := by
  constructor
  · intro still tracked
    by_contra short
    have refused : Refused t.limit t.heap ⟨data, latest hasher width depth (stream ++ [data]) data, moment⟩ :=
      (refused_iff_not_reaches h.pos).mpr short
    obtain ⟨e, held, rfl⟩ := mem_items.mp tracked
    have again : e ∈ u.residents := by rwa [residents, change.unchanged refused]
    obtain ⟨-, root, -, below⟩ := refused
    have more : latest hasher width depth stream e.data < latest hasher width depth (stream ++ [e.data]) e.data :=
      latest_lt_concat rows below
    rw [← current e held, ← still e again] at more
    exact absurd more (UInt64.lt_irrefl _)
  · intro reaches e member
    rcases change.mem h.distinct member with rfl | ⟨held, apart | ⟨refused, -⟩⟩
    · rfl
    · exact (current e held).trans (latest_concat_of_ne apart).symm
    · by_cases same : e.data = data
      · exact absurd (reaches (mem_items.mpr ⟨e, held, same⟩)) ((refused_iff_not_reaches h.pos).mp refused)
      · exact (current e held).trans (latest_concat_of_ne same).symm

/-- What one more addition of a tracked item leaves of its entry. -/
theorem Follows.add_again (h : Follows width depth epsilon delta hasher t stream) (inside : 0 < width)
    (rows : 0 < depth) {e : Entry} (listed : e ∈ t.elements) :
    ∃ u n, t.add e.data = .ok u ∧ u.sketch.count e.data = .ok n ∧
      (t.Reaches n → ⟨e.data, n, t.moment⟩ ∈ u.elements) ∧
      (¬t.Reaches n → u.elements = t.elements ∧ e.frequency < n) := by
  obtain ⟨u, added, -, change, follows⟩ := h.add inside rows e.data
  have counted : u.sketch.count e.data =
      .ok (latest hasher width depth (stream ++ [e.data]) e.data) := by
    have reordered : ((stream ++ [e.data] : List ByteArray) : Multiset ByteArray) = e.data ::ₘ stream :=
      Multiset.coe_eq_coe.mpr (List.perm_append_singleton _ stream)
    rw [follows.sketch, reordered, latest_concat_self]
    exact CountMin.count_tallied inside e.data
  refine ⟨u, _, added, counted, fun reaches => mem_elements.mpr ?_, fun short => ?_⟩
  · rcases change.kept h.distinct with ⟨refused, -⟩ | ⟨_, _, -, result, -⟩
    · exact absurd reaches ((refused_iff_not_reaches h.pos).mp refused)
    · exact head_mem result
  · have refused : Refused t.limit t.heap
        ⟨e.data, latest hasher width depth (stream ++ [e.data]) e.data, t.moment⟩ :=
      (refused_iff_not_reaches h.pos).mpr short
    have behind := h.behind e (mem_elements.mp listed)
    refine ⟨by rw [elements, elements, change.unchanged refused], ?_⟩
    obtain ⟨-, root, -, below⟩ := refused
    exact UInt64.lt_of_le_of_lt behind (latest_lt_concat rows below)

end Steps

section Runs
variable {width depth : Nat} {epsilon delta : UInt64} {hasher : Hasher} {start t : HeavyHitters}
  {stream : List ByteArray} {data : ByteArray}

theorem current_iff (h : Follows width depth epsilon delta hasher start []) (inside : 0 < width)
    (rows : 0 < depth) (fed : feed start stream = .ok t) :
    Current start stream ↔
      ∀ e ∈ t.residents, e.frequency = latest hasher width depth stream e.data := by
  constructor
  · rintro ⟨u, same, listed⟩ e held
    obtain rfl : t = u := Except.ok.inj (fed.symm.trans same)
    have estimate := listed e (mem_elements.mpr held)
    rw [lastEstimate_eq h inside rows] at estimate
    exact (Except.ok.inj estimate).symm
  · intro current
    refine ⟨t, fed, fun e listed => ?_⟩
    rw [lastEstimate_eq h inside rows, current e (mem_elements.mp listed)]

theorem readmits_iff (h : Follows width depth epsilon delta hasher start []) (inside : 0 < width)
    (rows : 0 < depth) (fed : feed start stream = .ok t) :
    Readmits start stream data ↔
      (data ∈ t.items → t.Reaches (latest hasher width depth (stream ++ [data]) data)) := by
  constructor
  · rintro ⟨u, n, same, estimate, reaches⟩ tracked
    obtain rfl : t = u := Except.ok.inj (fed.symm.trans same)
    rw [lastEstimate_eq h inside rows] at estimate
    exact Except.ok.inj estimate ▸ reaches (mem_map_elements.mpr tracked)
  · intro reaches
    exact ⟨t, _, fed, lastEstimate_eq h inside rows _ _, fun listed => reaches (mem_map_elements.mp listed)⟩

/-- Up to date after the stream, the tracker stays so over one more addition exactly where that readmits. -/
theorem current_concat_iff (h : Follows width depth epsilon delta hasher start []) (inside : 0 < width)
    (rows : 0 < depth) (current : Current start stream) :
    Current start (stream ++ [data]) ↔ Readmits start stream data := by
  obtain ⟨t, fed, -, follows⟩ := h.feed inside rows stream
  obtain ⟨u, added, -, change, -⟩ := follows.add inside rows data
  rw [current_iff h inside rows ((foldlM_concat_of_ok fed data).trans added), readmits_iff h inside rows fed]
  exact follows.current_concat rows change ((current_iff h inside rows fed).mp current)

theorem current_of_readmits (h : Follows width depth epsilon delta hasher start []) (inside : 0 < width)
    (rows : 0 < depth)
    (readmits : ∀ before data, before ++ [data] <+: stream → Readmits start before data) :
    Current start stream := by
  induction stream using List.reverseRecOn with
  | nil =>
    refine ⟨start, rfl, fun e listed => ?_⟩
    exact absurd (h.seen e (mem_elements.mp listed)) List.not_mem_nil
  | append_singleton before data ih =>
    have earlier := ih fun _ _ short => readmits _ _ (short.trans (List.prefix_append _ _))
    exact (current_concat_iff h inside rows earlier).mpr (readmits before data List.prefix_rfl)

end Runs

/-- Whether a tracked item is refreshed as it is seen again. If its new estimate reaches the root, its entry
has that estimate afterwards, else nothing is listed otherwise than before, which is less. Along a stream all
listed frequencies are the estimates at the last additions, and so not below the numbers of additions, exactly
when every addition of a tracked item reaches the root. -/
theorem refreshed_iff_root_reached (width depth : Nat) (epsilon delta : UInt64) (hasher : Hasher)
    (limit : Nat) (operations : List Operation) (inside : 0 < width) (rows : 0 < depth) (pos : 0 < limit) :
    let start := empty (.empty width depth epsilon delta hasher) limit
    let stream := additions operations
    (∃ t, run start operations = .ok t ∧ feed start stream = .ok t ∧
      (∀ e ∈ t.elements, ∃ u n, t.add e.data = .ok u ∧ u.sketch.count e.data = .ok n ∧
        (t.Reaches n → ⟨e.data, n, t.moment⟩ ∈ u.elements) ∧
        (¬t.Reaches n → u.elements = t.elements ∧ e.frequency < n)) ∧
      (Current start stream → ∀ e ∈ t.elements, min counterMax (stream.countP (e.data = ·)) ≤ e.frequency.toNat)) ∧
    ((∀ before, before <+: stream → Current start before) ↔
      ∀ before data, before ++ [data] <+: stream → Readmits start before data) := by
  intro start stream
  have h := empty_follows width depth epsilon delta hasher pos
  refine ⟨?_, fun current before data short => ?_, fun readmits before short => ?_⟩
  · obtain ⟨t, fed, -, follows⟩ := h.feed inside rows stream
    refine ⟨t, (run_eq_feed width depth epsilon delta hasher inside rows pos operations).trans fed, fed,
      fun e listed => follows.add_again inside rows listed, fun current e listed => ?_⟩
    rw [(current_iff h inside rows fed).mp current e (mem_elements.mp listed)]
    exact count_le_latest rows stream e.data
  · have earlier := current before ((List.prefix_append _ _).trans short)
    exact (current_concat_iff h inside rows earlier).mp (current _ short)
  · exact current_of_readmits h inside rows fun _ _ shorter => readmits _ _ (shorter.trans short)

/-- Two tracked items over one row of six counters. -/
private def pair : HeavyHitters := empty (.empty 6 1 0 0 .leadingBytes) 2

/-- The first item leads, yet the heap lets both in as long as the first one is not refreshed. -/
private def alternating : List Operation :=
  [.add (Hasher.dataOf 3 0), .clear, .add (Hasher.dataOf 1 0), .add (Hasher.dataOf 2 0), .add (Hasher.dataOf 2 0)]

theorem refreshed_item_is_current :
    0 < 6 ∧ 0 < 1 ∧ 0 < 2 ∧ ∃ t, run pair alternating = .ok t ∧
      t.elements = [⟨Hasher.dataOf 1 0, 1, 0⟩, ⟨Hasher.dataOf 2 0, 2, 2⟩] ∧
      ∀ e ∈ t.elements, min counterMax ((additions alternating).countP (e.data = ·)) ≤ e.frequency.toNat := by
  obtain ⟨⟨t, ran, fed, -, counted⟩, -⟩ := refreshed_iff_root_reached 6 1 0 0 .leadingBytes 2 alternating
    (by decide) (by decide) (by decide)
  have evaluated : (run pair alternating).map elements =
      .ok [⟨Hasher.dataOf 1 0, 1, 0⟩, ⟨Hasher.dataOf 2 0, 2, 2⟩] := by cbv
  have first : lastEstimate pair (additions alternating) (Hasher.dataOf 1 0) = .ok 1 := by cbv
  have second : lastEstimate pair (additions alternating) (Hasher.dataOf 2 0) = .ok 2 := by cbv
  have held : t.elements = [⟨Hasher.dataOf 1 0, 1, 0⟩, ⟨Hasher.dataOf 2 0, 2, 2⟩] := by
    rw [pair, ran] at evaluated
    exact Except.ok.inj evaluated
  refine ⟨by decide, by decide, by decide, t, ran, held, counted ⟨t, fed, fun e listed => ?_⟩⟩
  rw [held] at listed
  rcases List.mem_pair.mp listed with rfl | rfl
  · exact first
  · exact second

/-- The first item is refreshed at the root, above the new estimate of the second. -/
private def outranked : List ByteArray :=
  [Hasher.dataOf 1 0, Hasher.dataOf 2 0, Hasher.dataOf 1 0, Hasher.dataOf 1 0, Hasher.dataOf 2 0]

theorem outranked_item_is_stale :
    (∃ t, feed pair outranked = .ok t ∧ ∃ e ∈ t.elements, e.frequency.toNat < outranked.countP (e.data = ·)) ∧
      ¬Current pair outranked := by
  have evaluated : (feed pair outranked).map elements =
      .ok [⟨Hasher.dataOf 2 0, 1, 1⟩, ⟨Hasher.dataOf 1 0, 3, 3⟩] := by cbv
  have estimated : lastEstimate pair outranked (Hasher.dataOf 2 0) = .ok 2 := by cbv
  obtain ⟨t, fed, held⟩ := map_eq_ok.mp evaluated
  refine ⟨⟨t, fed, ⟨Hasher.dataOf 2 0, 1, 1⟩, held ▸ List.mem_cons_self, by decide⟩, ?_⟩
  rintro ⟨u, same, current⟩
  obtain rfl : t = u := Except.ok.inj (fed.symm.trans same)
  have estimate := current ⟨Hasher.dataOf 2 0, 1, 1⟩ (held ▸ List.mem_cons_self)
  exact absurd (Except.ok.inj (estimated.symm.trans estimate)) (by decide)

end Synopsis.Frequency.HeavyHitters
