import Synopsis.Frequency.HeavyHitters
import Synopsis.Proofs.Folds
import Synopsis.Proofs.Frequency.CountMinCells
import Synopsis.Proofs.Frequency.HeapEntries

/-! What one addition does to the entries that a heavy-hitter tracker holds. -/
namespace Synopsis.Frequency.HeavyHitters
open Hashing MinHeap

/-- The tracked entries regardless of their places. -/
def residents (t : HeavyHitters) : Multiset Entry := MinHeap.entries t.heap

/-- The tracked items. -/
def items (t : HeavyHitters) : Multiset ByteArray := t.residents.map Entry.data

theorem mem_items {t : HeavyHitters} {data : ByteArray} :
    data ∈ t.items ↔ ∃ e ∈ t.residents, e.data = data := Multiset.mem_map

theorem coe_elements (t : HeavyHitters) : (t.elements : Multiset Entry) = t.residents :=
  Multiset.coe_eq_coe.mpr (List.mergeSort_perm ..)

theorem mem_elements {t : HeavyHitters} {e : Entry} : e ∈ t.elements ↔ e ∈ t.residents := by
  rw [← coe_elements, Multiset.mem_coe]

theorem mem_map_elements {t : HeavyHitters} {data : ByteArray} :
    data ∈ t.elements.map Entry.data ↔ data ∈ t.items := by
  rw [items, ← coe_elements, Multiset.map_coe, Multiset.mem_coe]

theorem root_mem {t : HeavyHitters} {root : Entry} (top : t.heap[0]? = some root) :
    root ∈ t.residents :=
  MinHeap.mem_entries.mpr (Array.mem_of_getElem? top)

section Split
variable {t : HeavyHitters} {a e : Entry} {kept : Multiset Entry}

theorem head_mem (split : entries t.heap = a ::ₘ kept) : a ∈ t.residents := by
  rw [residents, split]
  exact Multiset.mem_cons_self _ _

theorem tail_mem (split : entries t.heap = a ::ₘ kept) (h : e ∈ kept) : e ∈ t.residents := by
  rw [residents, split]
  exact Multiset.mem_cons_of_mem h

theorem mem_split (split : entries t.heap = a ::ₘ kept) (h : e ∈ t.residents) : e = a ∨ e ∈ kept := by
  rw [residents, split] at h
  exact Multiset.mem_cons.mp h

end Split

/-- The root of a full heap keeps an entry out. -/
structure Refused (limit : Nat) (heap : Array Entry) (entry : Entry) : Prop where
  full : limit ≤ heap.size
  below : ∃ root, heap[0]? = some root ∧ entry.frequency < root.frequency

/-- The ways in which an addition can change the tracked entries. -/
inductive Change (limit : Nat) (heap : Array Entry) (entry : Entry) (after : Array Entry) : Prop
  /-- The entry of the item itself is replaced, wherever it is. -/
  | refreshed (old : Entry) (kept : Multiset Entry) (same : old.data = entry.data)
      (split : entries heap = old ::ₘ kept) (result : entries after = entry ::ₘ kept)
      (exceeds : ∀ root, heap[0]? = some root → limit ≤ heap.size → root.frequency ≤ entry.frequency)
      (next : ∀ root, after[0]? = some root → root = entry ∨ heap[0]? = some root)
  | joined (room : heap.size < limit) (new : ∀ e ∈ entries heap, e.data ≠ entry.data)
      (result : entries after = entry ::ₘ entries heap)
  /-- The root makes room. -/
  | replaced (root : Entry) (kept : Multiset Entry) (full : limit ≤ heap.size)
      (new : ∀ e ∈ entries heap, e.data ≠ entry.data) (top : heap[0]? = some root)
      (exceeds : root.frequency ≤ entry.frequency) (split : entries heap = root ::ₘ kept)
      (result : entries after = entry ::ₘ kept)
  | rejected (refused : Refused limit heap entry) (result : after = heap)

section Changes
variable {limit : Nat} {heap after : Array Entry} {entry : Entry}

/-- Unless nothing changes, some entries stay and the item's own comes in. -/
theorem Change.kept (change : Change limit heap entry after)
    (distinct : ((entries heap).map Entry.data).Nodup) :
    (Refused limit heap entry ∧ after = heap) ∨ ∃ gone kept, entries heap = gone + kept ∧
      entries after = entry ::ₘ kept ∧ ∀ e ∈ kept, e.data ≠ entry.data := by
  cases change with
  | refreshed old kept same split result _ _ =>
    refine .inr ⟨{old}, kept, split, result, fun e member again => ?_⟩
    rw [split, Multiset.map_cons, Multiset.nodup_cons] at distinct
    exact distinct.1 (Multiset.mem_map.mpr ⟨e, member, again.trans same.symm⟩)
  | joined _ new result => exact .inr ⟨0, _, (zero_add _).symm, result, new⟩
  | replaced root kept _ new _ _ split result =>
    refine .inr ⟨{root}, kept, split, result, fun e member => new e ?_⟩
    exact split ▸ Multiset.mem_cons_of_mem member
  | rejected refused result => exact .inl ⟨refused, result⟩

theorem Change.distinct (change : Change limit heap entry after)
    (distinct : ((entries heap).map Entry.data).Nodup) : ((entries after).map Entry.data).Nodup := by
  rcases change.kept distinct with ⟨-, same⟩ | ⟨gone, kept, split, result, others⟩
  · exact same ▸ distinct
  · rw [split, Multiset.map_add] at distinct
    rw [result, Multiset.map_cons, Multiset.nodup_cons]
    refine ⟨fun member => ?_, (Multiset.nodup_add.mp distinct).2.1⟩
    obtain ⟨e, held, same⟩ := Multiset.mem_map.mp member
    exact others e held same

theorem Change.mem (change : Change limit heap entry after)
    (distinct : ((entries heap).map Entry.data).Nodup) {e : Entry} (member : e ∈ entries after) :
    e = entry ∨ e ∈ entries heap ∧
      (e.data ≠ entry.data ∨ Refused limit heap entry ∧ after = heap) := by
  rcases change.kept distinct with ⟨refused, same⟩ | ⟨gone, kept, split, result, others⟩
  · exact .inr ⟨same ▸ member, .inr ⟨refused, same⟩⟩
  · rw [result] at member
    rcases Multiset.mem_cons.mp member with new | stays
    · exact .inl new
    · exact .inr ⟨split ▸ Multiset.mem_add.mpr (.inr stays), .inl (others e stays)⟩

theorem Change.size_le (change : Change limit heap entry after) (bounded : heap.size ≤ limit) :
    after.size ≤ limit := by
  rw [← card_entries] at bounded ⊢
  cases change with
  | refreshed old kept _ split result _ _ =>
    rw [split, Multiset.card_cons] at bounded
    rwa [result, Multiset.card_cons]
  | joined room _ result =>
    rw [← card_entries] at room
    rwa [result, Multiset.card_cons]
  | replaced root kept _ _ _ _ split result =>
    rw [split, Multiset.card_cons] at bounded
    rwa [result, Multiset.card_cons]
  | rejected _ result => rwa [result]

theorem Change.unchanged (change : Change limit heap entry after) (refused : Refused limit heap entry) :
    after = heap := by
  obtain ⟨full, root, top, below⟩ := refused
  cases change with
  | refreshed _ _ _ _ _ exceeds _ => exact absurd (exceeds root top full) (UInt64.not_le.mpr below)
  | joined room _ _ => exact absurd full (Nat.not_le_of_lt room)
  | replaced first _ _ _ there exceeds _ _ =>
    obtain rfl : root = first := Option.some.inj (top.symm.trans there)
    exact absurd exceeds (UInt64.not_le.mpr below)
  | rejected _ result => exact result

/-- While there is room, every tracked item stays tracked. -/
theorem Change.roomy (change : Change limit heap entry after) (room : after.size < limit) :
    heap.size < limit ∧ entry.data ∈ (entries after).map Entry.data ∧
      ∀ data ∈ (entries heap).map Entry.data, data ∈ (entries after).map Entry.data := by
  rw [← card_entries] at room
  cases change with
  | refreshed old kept same split result _ _ =>
    rw [← card_entries, split, result, Multiset.map_cons, Multiset.map_cons, same]
    rw [result, Multiset.card_cons] at room
    exact ⟨by rwa [Multiset.card_cons], Multiset.mem_cons_self _ _, fun _ member => member⟩
  | joined _ _ result =>
    rw [result, Multiset.card_cons, card_entries] at room
    rw [result, Multiset.map_cons]
    exact ⟨by omega, Multiset.mem_cons_self _ _, fun _ member => Multiset.mem_cons_of_mem member⟩
  | replaced root kept full _ _ _ split result =>
    rw [← card_entries, split, Multiset.card_cons] at full
    rw [result, Multiset.card_cons] at room
    exact absurd full (Nat.not_le_of_lt room)
  | rejected refused result =>
    rw [result, card_entries] at room
    exact absurd refused.full (Nat.not_le_of_lt room)

end Changes

theorem entries_set {heap : Array Entry} {i : Nat} {old : Entry} (found : heap[i]? = some old)
    (entry : Entry) :
    ∃ kept, entries heap = old ::ₘ kept ∧
      entries (heap.setIfInBounds i entry) = entry ::ₘ kept := by
  obtain ⟨inside, rfl⟩ := Array.getElem?_eq_some_iff.mp found
  refine ⟨heap.toList.eraseIdx i, ?_, ?_⟩
  · exact Multiset.coe_eq_coe.mpr (List.getElem_cons_eraseIdx_perm inside).symm
  · rw [MinHeap.entries, Array.toList_setIfInBounds]
    exact Multiset.coe_eq_coe.mpr (List.set_perm_cons_eraseIdx inside entry)

theorem admits_iff {t : HeavyHitters} (pos : 0 < t.limit) (n : UInt64) :
    t.admits n = true ↔
      t.heap.size < t.limit ∨ ∃ root, t.heap[0]? = some root ∧ root.frequency ≤ n := by
  rw [admits]
  cases top : t.heap[0]? with
  | none =>
    have bare := Array.getElem?_eq_none_iff.mp top
    simp only [true_iff]
    exact .inl (by omega)
  | some root => simp

theorem track_change {t : HeavyHitters} (pos : 0 < t.limit) {data : ByteArray} {n : UInt64}
    (admitted : t.admits n = true) :
    Change t.limit t.heap ⟨data, n, t.moment⟩ (t.track data n).heap := by
  have large := (admits_iff pos n).mp admitted
  cases found : t.heap.findIdx? (·.data == data) with
  | some i =>
    obtain ⟨inside, same, -⟩ := Array.findIdx?_eq_some_iff_getElem.mp found
    obtain ⟨kept, split, result⟩ :=
      entries_set (Array.getElem?_eq_getElem inside) (⟨data, n, t.moment⟩ : Entry)
    have heap : (t.track data n).heap = t.heap.setIfInBounds i ⟨data, n, t.moment⟩ := by
      simp only [track, found]
    rw [heap]
    refine .refreshed t.heap[i] kept (by simpa using same) split result ?_ ?_
    · intro root top full
      rcases large with room | ⟨other, here, exceeds⟩
      · exact absurd full (Nat.not_le_of_lt room)
      · exact Option.some.inj (top.symm.trans here) ▸ exceeds
    · intro root top
      rw [Array.getElem?_setIfInBounds] at top
      split at top
      · exact .inl (Option.some.inj top).symm
      · exact .inr top
  | none =>
    have new : ∀ e ∈ entries t.heap, e.data ≠ data := fun e held => by
      simpa using Array.findIdx?_eq_none_iff.mp found e (mem_entries.mp held)
    by_cases full : t.limit ≤ t.heap.size
    · have heap : (t.track data n).heap =
          push Entry.less (pop Entry.less t.heap) ⟨data, n, t.moment⟩ := by
        simp only [track, found, if_pos full]
      rcases large with room | ⟨root, top, exceeds⟩
      · exact absurd full (Nat.not_le_of_lt room)
      · exact .replaced root _ full new top exceeds (entries_pop top) (heap ▸ entries_push ..)
    · have heap : (t.track data n).heap = push Entry.less t.heap ⟨data, n, t.moment⟩ := by
        simp only [track, found, if_neg full]
      exact .joined (Nat.lt_of_not_le full) new (heap ▸ entries_push ..)

/-- The root keeps out what is not admitted. -/
theorem refused_iff {t : HeavyHitters} (pos : 0 < t.limit) {entry : Entry} :
    Refused t.limit t.heap entry ↔ ¬t.admits entry.frequency = true := by
  rw [admits_iff pos, not_or]
  constructor
  · rintro ⟨full, root, top, below⟩
    refine ⟨Nat.not_lt_of_le full, ?_⟩
    rintro ⟨other, there, exceeds⟩
    obtain rfl : root = other := Option.some.inj (top.symm.trans there)
    exact absurd exceeds (UInt64.not_le.mpr below)
  · rintro ⟨full, least⟩
    have inside : 0 < t.heap.size := pos.trans_le (Nat.le_of_not_lt full)
    have top : t.heap[0]? = some t.heap[0] := Array.getElem?_eq_getElem inside
    exact ⟨Nat.le_of_not_lt full, _, top, UInt64.not_le.mp fun exceeds => least ⟨_, top, exceeds⟩⟩

/-- An addition counts the item in the sketch, and numbers a moment if the item's estimate is admitted. -/
theorem add_eq_ok {t u : HeavyHitters} {data : ByteArray} (run : t.add data = .ok u) :
    ∃ n, t.sketch.add data = .ok u.sketch ∧ u.sketch.count data = .ok n ∧ u.limit = t.limit ∧
      u.total = t.total + 1 ∧
      (t.admits n = true ∧ u.heap = (t.track data n).heap ∧ u.moment = t.moment + 1 ∨
        t.admits n = false ∧ u.heap = t.heap ∧ u.moment = t.moment) := by
  obtain ⟨sketch, added, run⟩ := bind_eq_ok.mp run
  obtain ⟨n, counted, run⟩ := bind_eq_ok.mp run
  cases admitted : t.admits n with
  | true =>
    obtain rfl := (Except.ok.inj run).symm.trans (if_pos admitted)
    exact ⟨n, added, counted, rfl, rfl, .inl ⟨admitted, rfl, rfl⟩⟩
  | false =>
    obtain rfl := (Except.ok.inj run).symm.trans (if_neg (Bool.eq_false_iff.mp admitted))
    exact ⟨n, added, counted, rfl, rfl, .inr ⟨admitted, rfl, rfl⟩⟩

/-- An addition counts the item and changes the tracked entries in one of the four ways. -/
theorem add_change {t : HeavyHitters} {width depth : Nat} {epsilon delta : UInt64} {hasher : Hasher}
    {held : Multiset ByteArray} (pos : 0 < t.limit) (inside : 0 < width)
    (sketch : t.sketch = .tallied width depth epsilon delta hasher held) (data : ByteArray) :
    ∃ u, t.add data = .ok u ∧ u.limit = t.limit ∧
      u.sketch = .tallied width depth epsilon delta hasher (data ::ₘ held) ∧
      Change t.limit t.heap
        ⟨data, saturated (CountMin.estimate hasher width depth (data ::ₘ held) data), t.moment⟩
        u.heap := by
  have added : t.sketch.add data = .ok (.tallied width depth epsilon delta hasher (data ::ₘ held)) := by
    rw [sketch]
    exact CountMin.addCount_tallied inside data 1
  let n := saturated (CountMin.estimate hasher width depth (data ::ₘ held) data)
  have counted : (CountMin.tallied width depth epsilon delta hasher (data ::ₘ held)).count data =
      .ok n := CountMin.count_tallied inside data
  let grown : HeavyHitters :=
    { t with sketch := .tallied width depth epsilon delta hasher (data ::ₘ held), total := t.total + 1 }
  have run : t.add data = .ok (if grown.admits n then grown.track data n else grown) := by
    simp only [add, added]
    change (CountMin.count _ _ >>= _) = _
    rw [counted]
    rfl
  by_cases admitted : grown.admits n = true
  · rw [if_pos admitted] at run
    exact ⟨_, run, rfl, rfl, track_change (t := grown) pos admitted⟩
  · rw [if_neg admitted] at run
    exact ⟨_, run, rfl, rfl, .rejected ((refused_iff (t := grown) pos).mpr admitted) rfl⟩

end Synopsis.Frequency.HeavyHitters
