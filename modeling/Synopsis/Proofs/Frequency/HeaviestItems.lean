import Synopsis.Proofs.Frequency.TrackedStreams
import Synopsis.Proofs.Hashing.LeadingBytes

/-! When a heavy-hitter tracker holds the heaviest items: a heap whose residents were refreshed in place
can have an entry at its root that is not the least. -/
namespace Synopsis.Frequency.HeavyHitters
open Hashing MinHeap

/-- No item outside the tracked ones was last estimated above a tracked frequency. -/
def Heaviest (hasher : Hasher) (width depth : Nat) (t : HeavyHitters) (stream : List ByteArray) : Prop :=
  ∀ data ∈ stream, data ∉ t.items → ∀ e ∈ t.residents, latest hasher width depth stream data ≤ e.frequency

/-- Where an untracked item meets a full heap, the entry at the root is a least one, or the newcomer is not
estimated above any tracked frequency. -/
def Fair (t : HeavyHitters) (data : ByteArray) (newest : UInt64) : Prop :=
  t.limit ≤ t.heap.size → data ∉ t.items → ∀ root, t.heap[0]? = some root →
    (∀ e ∈ t.residents, root.frequency ≤ e.frequency) ∨ ∀ e ∈ t.residents, newest ≤ e.frequency

/-- Entries fall behind their item's estimate only where that is below the root. -/
def Fresh (hasher : Hasher) (width depth : Nat) (t : HeavyHitters) (stream : List ByteArray) : Prop :=
  ∀ root, t.heap[0]? = some root → ∀ e ∈ t.residents,
    e.frequency = latest hasher width depth stream e.data ∨
      latest hasher width depth stream e.data < root.frequency

section Steps
variable {width depth : Nat} {epsilon delta : UInt64} {hasher : Hasher} {t u : HeavyHitters}
  {stream : List ByteArray} {data : ByteArray} {moment : Nat}

/-- Where the root is least, no entry is behind. -/
theorem Fresh.all (fresh : Fresh hasher width depth t stream)
    (h : Follows width depth epsilon delta hasher t stream) {root : Entry}
    (top : t.heap[0]? = some root) (least : ∀ e ∈ t.residents, root.frequency ≤ e.frequency) :
    ∀ e ∈ t.residents, e.frequency = latest hasher width depth stream e.data := by
  intro e member
  rcases fresh root top e member with current | below
  · exact current
  · have above := UInt64.le_trans (least e member) (h.behind e member)
    exact absurd above (UInt64.not_le.mpr below)

theorem notMem_items (new : ∀ e ∈ entries t.heap, e.data ≠ data) : data ∉ t.items := fun member => by
  obtain ⟨e, held, same⟩ := mem_items.mp member
  exact new e held same

theorem Fair.least {n : UInt64} (fair : Fair t data n) (full : t.limit ≤ t.heap.size)
    (new : ∀ e ∈ entries t.heap, e.data ≠ data) {root : Entry} (top : t.heap[0]? = some root)
    (exceeds : root.frequency ≤ n) : ∀ e ∈ t.residents, root.frequency ≤ e.frequency := by
  rcases fair full (notMem_items new) root top with least | low
  · exact least
  · exact fun e member => UInt64.le_trans exceeds (low e member)

section Addition
variable (h : Follows width depth epsilon delta hasher t stream)
  (change : Change t.limit t.heap ⟨data, latest hasher width depth (stream ++ [data]) data, moment⟩ u.heap)
include h change

theorem Heaviest.concat (heaviest : Heaviest hasher width depth t stream)
    (fresh : Fresh hasher width depth t stream) (rows : 0 < depth)
    (fair : Fair t data (latest hasher width depth (stream ++ [data]) data)) :
    Heaviest hasher width depth u (stream ++ [data]) := by
  intro other member untracked e held
  have earlier (apart : other ≠ data) : other ∈ stream :=
    (List.mem_append.mp member).resolve_right fun last => apart (List.mem_singleton.mp last)
  -- an item that enters is tracked, so the untracked one is another and keeps its estimate
  have apart {kept : Multiset Entry}
      (result : entries u.heap = ⟨data, latest hasher width depth (stream ++ [data]) data, moment⟩ ::ₘ kept) :
      other ≠ data := by
    rintro rfl
    exact untracked (mem_items.mpr ⟨_, head_mem result, rfl⟩)
  cases change with
  | refreshed old kept same split result _ _ =>
    have items : u.items = t.items := by
      rw [items, items, residents, residents, split, result, Multiset.map_cons, Multiset.map_cons, same]
    have below := heaviest other (earlier (apart result)) (items ▸ untracked)
    rw [latest_concat_of_ne (apart result)]
    rcases mem_split result held with rfl | stays
    · calc latest hasher width depth stream other
        _ ≤ old.frequency := below old (head_mem split)
        _ ≤ latest hasher width depth stream old.data := h.behind old (head_mem split)
        _ ≤ latest hasher width depth (stream ++ [data]) data := same ▸ latest_le_concat rows
    · exact below e (tail_mem split stays)
  | joined room _ result =>
    obtain ⟨resident, inside, same⟩ := mem_items.mp ((h.roomy room).1 other (earlier (apart result)))
    exact absurd (mem_items.mpr ⟨resident, tail_mem result inside, same⟩) untracked
  | replaced root kept full new top exceeds split result =>
    have least := fair.least full new top exceeds
    have below : latest hasher width depth stream other ≤ root.frequency := by
      by_cases tracked : other ∈ t.items
      · obtain ⟨gone, inside, rfl⟩ := mem_items.mp tracked
        rcases mem_split split inside with rfl | stays
        · exact (fresh.all h top least gone inside).symm ▸ UInt64.le_refl _
        · exact absurd (mem_items.mpr ⟨gone, tail_mem result stays, rfl⟩) untracked
      · exact heaviest other (earlier (apart result)) tracked root (root_mem top)
    rw [latest_concat_of_ne (apart result)]
    refine UInt64.le_trans below ?_
    rcases mem_split result held with rfl | stays
    · exact exceeds
    · exact least e (tail_mem split stays)
  | rejected refused result =>
    obtain ⟨full, root, top, below⟩ := refused
    have held : e ∈ t.residents := by rwa [residents, result] at held
    have untracked : other ∉ t.items := by rwa [items, residents, result] at untracked
    by_cases same : other = data
    · subst same
      rcases fair full untracked root top with least | low
      · exact UInt64.le_trans (UInt64.le_of_lt below) (least e held)
      · exact low e held
    · rw [latest_concat_of_ne same]
      exact heaviest other (earlier same) untracked e held

theorem Fresh.concat (fresh : Fresh hasher width depth t stream)
    (fair : Fair t data (latest hasher width depth (stream ++ [data]) data)) :
    Fresh hasher width depth u (stream ++ [data]) := by
  intro next atRoot e member
  rcases change.mem h.distinct member with rfl | ⟨held, apart | ⟨⟨full, root, top, below⟩, same⟩⟩
  · exact .inl rfl
  · rw [latest_concat_of_ne apart]
    cases change with
    | refreshed _ _ _ _ _ exceeds moved =>
      by_cases full : t.limit ≤ t.heap.size
      · have inside : 0 < t.heap.size := Nat.lt_of_lt_of_le h.pos full
        have top : t.heap[0]? = some t.heap[0] := Array.getElem?_eq_getElem inside
        rcases fresh _ top e held with current | below
        · exact .inl current
        · rcases moved next atRoot with rfl | there
          · exact .inr (UInt64.lt_of_lt_of_le below (exceeds _ top full))
          · exact .inr (Option.some.inj (there.symm.trans top) ▸ below)
      · exact .inl ((h.roomy (Nat.lt_of_not_le full)).2 e held)
    | joined room _ _ => exact .inl ((h.roomy room).2 e held)
    | replaced root _ full new top exceeds _ _ =>
      exact .inl (fresh.all h top (fair.least full new top exceeds) e held)
    | rejected _ result => exact fresh next (result ▸ atRoot) e held
  · obtain rfl : next = root := Option.some.inj ((same ▸ atRoot).symm.trans top)
    by_cases apart : e.data = data
    · exact .inr (apart ▸ below)
    · rw [latest_concat_of_ne apart]
      exact fresh next top e held

theorem Heaviest.fair (heaviest : Heaviest hasher width depth u (stream ++ [data])) :
    Fair t data (latest hasher width depth (stream ++ [data]) data) := by
  intro full new root top
  cases change with
  | refreshed old kept same split result exceeds next =>
    exact absurd (mem_items.mpr ⟨old, head_mem split, same⟩) new
  | joined room _ result => exact absurd full (Nat.not_le_of_lt room)
  | replaced first kept _ _ there exceeds split result =>
    obtain rfl : root = first := Option.some.inj (top.symm.trans there)
    have apart : root.data ≠ data := fun same => new (mem_items.mpr ⟨root, root_mem top, same⟩)
    have gone : root.data ∉ u.items := fun member => by
      obtain ⟨e, held, same⟩ := mem_items.mp member
      rcases mem_split result held with rfl | stays
      · exact apart same.symm
      · have distinct := h.distinct
        rw [items, residents, split, Multiset.map_cons, Multiset.nodup_cons] at distinct
        exact distinct.1 (Multiset.mem_map.mpr ⟨e, stays, same⟩)
    refine .inl fun e member => ?_
    rcases mem_split split member with rfl | stays
    · exact UInt64.le_refl _
    · have seen := List.mem_append_left [data] (h.seen root (root_mem top))
      have below := heaviest root.data seen gone e (tail_mem result stays)
      rw [latest_concat_of_ne apart] at below
      exact UInt64.le_trans (h.behind root (root_mem top)) below
  | rejected refused result =>
    refine .inr fun e member => ?_
    have untracked : data ∉ u.items := by
      rw [items, residents, result]
      exact new
    refine heaviest data (List.mem_append_right _ List.mem_cons_self) untracked e ?_
    rw [residents, result]
    exact member

end Addition
end Steps

/-- The estimate of an item by the sketch right after its last addition. -/
def lastEstimate (start : HeavyHitters) (stream : List ByteArray) (data : ByteArray) :
    Outcome UInt64 := do
  (← feed start (stream.rdropWhile fun other => other ≠ data)).sketch.count data

/-- After the stream, no item outside the tracked ones has a last estimate above a tracked frequency. -/
def TracksHeaviest (start : HeavyHitters) (stream : List ByteArray) : Prop :=
  ∃ t, feed start stream = .ok t ∧ ∀ data ∈ stream, data ∉ t.elements.map Entry.data →
    ∃ n, lastEstimate start stream data = .ok n ∧ ∀ e ∈ t.elements, n ≤ e.frequency

/-- After the stream, one more item is admitted or kept out rightly. -/
def FairAddition (start : HeavyHitters) (stream : List ByteArray) (data : ByteArray) : Prop :=
  ∃ t n, feed start stream = .ok t ∧ lastEstimate start (stream ++ [data]) data = .ok n ∧ Fair t data n

section Runs
variable {width depth : Nat} {epsilon delta : UInt64} {hasher : Hasher} {start t : HeavyHitters}
  {stream : List ByteArray} {data : ByteArray}

theorem lastEstimate_eq (h : Follows width depth epsilon delta hasher start []) (inside : 0 < width)
    (rows : 0 < depth) (stream : List ByteArray) (data : ByteArray) :
    lastEstimate start stream data = .ok (latest hasher width depth stream data) := by
  obtain ⟨t, fed, -, follows⟩ := h.feed inside rows (stream.rdropWhile fun other => other ≠ data)
  rw [lastEstimate, fed]
  change t.sketch.count data = _
  rw [follows.sketch]
  exact CountMin.count_tallied inside data

theorem tracksHeaviest_iff (h : Follows width depth epsilon delta hasher start []) (inside : 0 < width)
    (rows : 0 < depth) (fed : feed start stream = .ok t) :
    TracksHeaviest start stream ↔ Heaviest hasher width depth t stream := by
  constructor
  · rintro ⟨u, same, tracks⟩ data member untracked e held
    obtain rfl : t = u := Except.ok.inj (fed.symm.trans same)
    obtain ⟨n, estimate, low⟩ := tracks data member (mem_map_elements.not.mpr untracked)
    rw [lastEstimate_eq h inside rows] at estimate
    exact Except.ok.inj estimate ▸ low e (mem_elements.mpr held)
  · intro heaviest
    refine ⟨t, fed, fun data member untracked => ⟨_, lastEstimate_eq h inside rows stream data, ?_⟩⟩
    exact fun e held =>
      heaviest data member (mem_map_elements.not.mp untracked) e (mem_elements.mp held)

/-- Fair additions keep the heaviest items. -/
theorem heaviest_of_fair (h : Follows width depth epsilon delta hasher start []) (inside : 0 < width)
    (rows : 0 < depth)
    (fair : ∀ before data, before ++ [data] <+: stream → FairAddition start before data)
    (fed : feed start stream = .ok t) :
    Heaviest hasher width depth t stream ∧ Fresh hasher width depth t stream := by
  induction stream using List.reverseRecOn generalizing t with
  | nil =>
    obtain rfl : start = t := Except.ok.inj fed
    refine ⟨fun _ none => absurd none List.not_mem_nil, fun root top e held => ?_⟩
    exact absurd (h.seen e held) List.not_mem_nil
  | append_singleton before data ih =>
    obtain ⟨t', fed', -, follows⟩ := h.feed inside rows before
    obtain ⟨heaviest, fresh⟩ := ih (fun _ _ short => fair _ _ (short.trans (List.prefix_append _ _))) fed'
    obtain ⟨u, added, -, change, -⟩ := follows.add inside rows data
    obtain rfl : u = t := Except.ok.inj (added.symm.trans ((foldlM_concat_of_ok fed' data).symm.trans fed))
    obtain ⟨t'', n, same, estimate, fair⟩ := fair before data List.prefix_rfl
    obtain rfl : t' = t'' := Except.ok.inj (fed'.symm.trans same)
    rw [lastEstimate_eq h inside rows] at estimate
    obtain rfl := Except.ok.inj estimate
    exact ⟨heaviest.concat follows change fresh rows fair, fresh.concat follows change fair⟩

theorem fair_of_heaviest (h : Follows width depth epsilon delta hasher start []) (inside : 0 < width)
    (rows : 0 < depth) (tracks : TracksHeaviest start (stream ++ [data])) :
    FairAddition start stream data := by
  obtain ⟨t, fed, -, follows⟩ := h.feed inside rows stream
  obtain ⟨u, added, -, change, -⟩ := follows.add inside rows data
  rw [tracksHeaviest_iff h inside rows ((foldlM_concat_of_ok fed data).trans added)] at tracks
  exact ⟨t, _, fed, lastEstimate_eq h inside rows _ _, tracks.fair follows change⟩

/-- A single tracked item is at the root, so that nothing less can hide below. -/
theorem single_fair (h : Follows width depth epsilon delta hasher start []) (inside : 0 < width)
    (rows : 0 < depth) (one : start.limit = 1) (stream : List ByteArray) (data : ByteArray) :
    FairAddition start stream data := by
  obtain ⟨t, fed, limited, follows⟩ := h.feed inside rows stream
  refine ⟨t, _, fed, lastEstimate_eq h inside rows _ _, fun _ _ root top => .inl fun e held => ?_⟩
  have few : t.residents.card ≤ 1 := by
    rw [residents, card_entries]
    exact follows.bounded.trans (limited.trans one).le
  obtain ⟨rest, split⟩ := Multiset.exists_cons_of_mem (root_mem top)
  have alone : rest = 0 := by
    rw [split, Multiset.card_cons] at few
    exact Multiset.card_eq_zero.mp (by omega)
  rw [split, alone] at held
  exact Multiset.mem_singleton.mp held ▸ UInt64.le_refl _

end Runs

/-- A tracker holds as many distinct items as it has room for, and along a stream these are the heaviest
exactly when every addition of an untracked item to a full heap is fair. -/
theorem heaviest_iff_additions_fair (width depth : Nat) (epsilon delta : UInt64) (hasher : Hasher)
    (limit : Nat) (operations : List Operation) (inside : 0 < width) (rows : 0 < depth)
    (pos : 0 < limit) :
    let start := empty (.empty width depth epsilon delta hasher) limit
    let stream := additions operations
    (∃ t, run start operations = .ok t ∧ feed start stream = .ok t ∧
      (t.elements.map Entry.data).Nodup ∧ (∀ e ∈ t.elements, e.data ∈ stream) ∧
      t.elements.length = min limit stream.dedup.length) ∧
    ((∀ before, before <+: stream → TracksHeaviest start before) ↔
      ∀ before data, before ++ [data] <+: stream → FairAddition start before data) := by
  intro start stream
  have h := empty_follows width depth epsilon delta hasher pos
  refine ⟨?_, fun tracks before data short => ?_, fun fair before short => ?_⟩
  · obtain ⟨t, fed, limited, follows⟩ := h.feed inside rows stream
    refine ⟨t, (run_eq_feed width depth epsilon delta hasher inside rows pos operations).trans fed,
      fed, ?_, fun e held => follows.seen e (mem_elements.mp held), ?_⟩
    · rw [← Multiset.coe_nodup, ← Multiset.map_coe, coe_elements]
      exact follows.distinct
    · have size : t.elements.length = t.heap.size :=
        (congrArg Multiset.card (coe_elements t)).trans (card_entries _)
      rw [size, follows.size_eq, limited]
      rfl
  · exact fair_of_heaviest h inside rows (tracks _ short)
  · obtain ⟨t, fed, -⟩ := h.feed inside rows before
    refine (tracksHeaviest_iff h inside rows fed).mpr (heaviest_of_fair h inside rows ?_ fed).1
    exact fun _ _ shorter => fair _ _ (shorter.trans short)

/-- One row of six counters. -/
private def tracker (limit : Nat) : HeavyHitters := empty (.empty 6 1 0 0 .leadingBytes) limit

private def contended : List Operation :=
  [.add (Hasher.dataOf 2 0), .clear, .add (Hasher.dataOf 1 0), .add (Hasher.dataOf 1 0),
    .add (Hasher.dataOf 2 0)]

theorem single_item_is_heaviest :
    (∃ t, run (tracker 1) contended = .ok t ∧ t.elements.length = 1) ∧
      ∀ before, before <+: [Hasher.dataOf 1 0, Hasher.dataOf 1 0, Hasher.dataOf 2 0] →
        TracksHeaviest (tracker 1) before := by
  obtain ⟨⟨t, ran, -, -, -, length⟩, characterized⟩ :=
    heaviest_iff_additions_fair 6 1 0 0 .leadingBytes 1 contended (by decide) (by decide) (by decide)
  refine ⟨⟨t, ran, length.trans (by decide)⟩, characterized.mpr fun before data _ => ?_⟩
  exact single_fair (empty_follows 6 1 0 0 .leadingBytes (by decide)) (by decide) (by decide) rfl _ _

/-- The first item is refreshed at the root, above the second, and gives way to the third. -/
private def displaced : List ByteArray :=
  [Hasher.dataOf 1 0, Hasher.dataOf 2 0, Hasher.dataOf 1 0, Hasher.dataOf 3 0, Hasher.dataOf 3 0]

theorem refreshed_root_is_lost : ¬TracksHeaviest (tracker 2) displaced := by
  rintro ⟨t, fed, tracks⟩
  have evaluated : (feed (tracker 2) displaced).map elements =
      .ok [⟨Hasher.dataOf 2 0, 1, 1⟩, ⟨Hasher.dataOf 3 0, 2, 3⟩] := by cbv
  have estimated : lastEstimate (tracker 2) displaced (Hasher.dataOf 1 0) = .ok 2 := by cbv
  rw [fed] at evaluated
  have held : t.elements = [⟨Hasher.dataOf 2 0, 1, 1⟩, ⟨Hasher.dataOf 3 0, 2, 3⟩] :=
    Except.ok.inj evaluated
  rw [held] at tracks
  obtain ⟨n, estimate, low⟩ := tracks (Hasher.dataOf 1 0) List.mem_cons_self (by decide)
  obtain rfl : 2 = n := Except.ok.inj (estimated.symm.trans estimate)
  exact absurd (low _ List.mem_cons_self) (by decide)

end Synopsis.Frequency.HeavyHitters
