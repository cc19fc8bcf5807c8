import Synopsis.Frequency.CountMin
import Mathlib

/-! Closed form of Count-Min sketches: the sketch of a multiset of items, counter by counter. -/
namespace Synopsis.Frequency
open Numeric Hashing

/-- The counter that has counted up to `n`. -/
def saturated (n : Nat) : UInt64 := (min n counterMax).toUInt64

theorem toNat_saturated (n : Nat) : (saturated n).toNat = min n counterMax := by
  simp only [saturated, counterMax, UInt64.size, Nat.toUInt64_eq, UInt64.toNat_ofNat']
  exact Nat.mod_eq_of_lt (by omega)

theorem saturatingAdd_saturated (a b : Nat) :
    saturatingAdd (saturated a) (saturated b) = saturated (a + b) := by
  apply UInt64.toNat_inj.mp
  rw [toNat_saturatingAdd, toNat_saturated, toNat_saturated, toNat_saturated]
  omega

theorem saturated_toNat (n : UInt64) : saturated n.toNat = n := by
  apply UInt64.toNat_inj.mp
  rw [toNat_saturated]
  have below := n.toNat_lt_size
  exact Nat.min_eq_left (Nat.le_sub_one_of_lt below)

theorem saturated_le {a b : Nat} (h : a ≤ b) : saturated a ≤ saturated b := by
  rw [UInt64.le_iff_toNat_le, toNat_saturated, toNat_saturated]
  omega

theorem min_saturated (a b : Nat) : min (saturated a) (saturated b) = saturated (min a b) := by
  change (if saturated a ≤ saturated b then saturated a else saturated b) = _
  rcases Nat.le_total a b with h | h
  · rw [Nat.min_eq_left h, if_pos (saturated_le h)]
  · rw [Nat.min_eq_right h]
    split
    · next other => exact UInt64.le_antisymm other (saturated_le h)
    · rfl

namespace CountMin

theorem check_eq_ok_iff {s : CountMin} : s.check = .ok () ↔ 0 < s.width ∨ s.depth = 0 := by
  unfold check depth
  rcases Nat.eq_zero_or_pos s.width with none | some
  · cases s.rows <;> simp [none]
  · simp [some, some.ne']

theorem check_eq {s : CountMin} (inside : 0 < s.width) : s.check = .ok () :=
  check_eq_ok_iff.mpr (.inl inside)

theorem addCount_of_check {s : CountMin} (checked : s.check = .ok ()) (data : ByteArray) (n : UInt64) :
    s.addCount data n = .ok { s with
      rows := addToRows (s.probe data) s.width n 0 s.rows
      total := saturatingAdd s.total n } := by
  rw [addCount, checked]
  rfl

theorem count_of_check {s : CountMin} (checked : s.check = .ok ()) (data : ByteArray) :
    s.count data = .ok ((countersOf (s.probe data) s.width 0 s.rows).min?.getD 0) := by
  rw [count, checked]
  rfl

theorem count_of_no_rows {s : CountMin} (none : s.depth = 0) (data : ByteArray) :
    s.count data = .ok 0 := by
  rw [count_of_check (check_eq_ok_iff.mpr (.inr none)), List.length_eq_zero_iff.mp none]
  rfl

theorem fails_of_no_columns {s : CountMin} (none : s.width = 0) (rows : 0 < s.depth) (data : ByteArray) :
    (∀ n, s.addCount data n = .error .zeroModulus) ∧ s.count data = .error .zeroModulus := by
  have checked : s.check = .error .zeroModulus := by
    rw [check, if_pos]
    cases h : s.rows with
    | nil => rw [depth, h] at rows; cases rows
    | cons => simp [none]
  constructor
  · intro n
    rw [addCount, checked]
    rfl
  · rw [count, checked]
    rfl

/-- The column of an item in a row. -/
def column (hasher : Hasher) (width row : Nat) (data : ByteArray) : Nat :=
  (Probe.narrow (hasher.digest data)).index row width

/-- The copies that one counter counts. -/
def share (hasher : Hasher) (width : Nat) (held : Multiset ByteArray) (row column : Nat) : Nat :=
  held.countP fun data => CountMin.column hasher width row data = column

def tallyRow (hasher : Hasher) (width : Nat) (held : Multiset ByteArray) (row : Nat) : Array UInt64 :=
  Array.ofFn fun column : Fin width => saturated (share hasher width held row column)

/-- The sketch of given items, each held as often as it was added. -/
def tallied (width depth : Nat) (epsilon delta : UInt64) (hasher : Hasher)
    (held : Multiset ByteArray) : CountMin :=
  ⟨width, (List.range' 0 depth).map (tallyRow hasher width held), epsilon, delta,
    saturated held.card, hasher⟩

variable {width depth : Nat} {epsilon delta : UInt64} {hasher : Hasher} {held : Multiset ByteArray}

theorem addToRows_range (p : Probe) (n : UInt64) (row : Nat → Array UInt64) (first depth : Nat) :
    addToRows p width n first ((List.range' first depth).map row) =
      (List.range' first depth).map fun r => (row r).modify (p.index r width) (saturatingAdd · n) := by
  induction depth generalizing first with
  | zero => rfl
  | succ depth ih => simp only [List.range'_succ, List.map_cons, addToRows, ih]

theorem countersOf_range (p : Probe) (row : Nat → Array UInt64) (first depth : Nat) :
    countersOf p width first ((List.range' first depth).map row) =
      (List.range' first depth).map fun r => (row r)[p.index r width]?.getD 0 := by
  induction depth generalizing first with
  | zero => rfl
  | succ depth ih => simp only [List.range'_succ, List.map_cons, countersOf, ih]

/-- A row whose counters have counted up to the given loads. -/
def loadedRow (width : Nat) (load : Nat → Nat) : Array UInt64 :=
  Array.ofFn fun column : Fin width => saturated (load column)

/-- A sketch whose counters have counted up to the given loads, whatever was counted. -/
def loaded (width depth : Nat) (epsilon delta : UInt64) (hasher : Hasher) (load : Nat → Nat → Nat)
    (total : Nat) : CountMin :=
  ⟨width, (List.range' 0 depth).map fun row => loadedRow width (load row), epsilon, delta,
    saturated total, hasher⟩

/-- The least load among the counters of an item. -/
def leastLoad (hasher : Hasher) (width depth : Nat) (load : Nat → Nat → Nat) (data : ByteArray) : Nat :=
  ((List.range' 0 depth).map fun row => load row (column hasher width row data)).min?.getD 0

theorem le_leastLoad_iff {load : Nat → Nat → Nat} (rows : 0 < depth) {data : ByteArray} {n : Nat} :
    n ≤ leastLoad hasher width depth load data ↔
      ∀ row < depth, n ≤ load row (column hasher width row data) := by
  obtain ⟨least, found⟩ : ∃ least,
      ((List.range' 0 depth).map fun row => load row (column hasher width row data)).min? = some least :=
    Option.isSome_iff_exists.mp (List.isSome_min?_of_ne_nil (by simp; omega))
  rw [leastLoad, found, Option.getD_some, List.le_min?_iff found]
  simp

theorem min?_map_saturated (xs : List Nat) :
    (xs.map saturated).min?.getD 0 = saturated (xs.min?.getD 0) := by
  cases xs with
  | nil => rfl
  | cons x xs =>
    simp only [List.map_cons, List.min?_cons', Option.getD_some]
    induction xs generalizing x with
    | nil => rfl
    | cons y ys ih => simp only [List.map_cons, List.foldl_cons, min_saturated, ih]

theorem getElem?_loadedRow {load : Nat → Nat} {c : Nat} (inside : c < width) :
    (loadedRow width load)[c]? = some (saturated (load c)) := by
  simp [loadedRow, inside]

theorem count_loaded (inside : 0 < width) (load : Nat → Nat → Nat) (total : Nat) (data : ByteArray) :
    (loaded width depth epsilon delta hasher load total).count data =
      .ok (saturated (leastLoad hasher width depth load data)) := by
  have checked : (loaded width depth epsilon delta hasher load total).check = .ok () := check_eq inside
  have cells : countersOf (.narrow (hasher.digest data)) width 0
      ((List.range' 0 depth).map fun row => loadedRow width (load row)) =
        ((List.range' 0 depth).map fun row =>
          load row (column hasher width row data)).map saturated := by
    rw [countersOf_range, List.map_map]
    refine List.map_congr_left fun row _ => ?_
    have place : column hasher width row data < width := Probe.index_lt _ _ inside
    exact congrArg (Option.getD · 0) (getElem?_loadedRow place)
  rw [count_of_check checked]
  change Except.ok ((countersOf (.narrow (hasher.digest data)) width 0
    ((List.range' 0 depth).map fun row => loadedRow width (load row))).min?.getD 0) = _
  rw [cells, min?_map_saturated]
  rfl

theorem tallied_zero (width depth : Nat) (epsilon delta : UInt64) (hasher : Hasher) :
    tallied width depth epsilon delta hasher 0 = empty width depth epsilon delta hasher := by
  have row : tallyRow hasher width 0 = fun _ => Array.replicate width 0 := by
    funext r
    exact Array.ext (by simp [tallyRow]) fun i _ _ => by simp [tallyRow, share, saturated]
  simp only [tallied, row, empty, List.map_const', List.length_range']
  rfl

theorem clear_tallied :
    (tallied width depth epsilon delta hasher held).clear = empty width depth epsilon delta hasher := by
  simp only [clear, tallied, tallyRow, empty, List.map_map, Function.comp_def, Array.size_ofFn,
    List.map_const', List.length_range']

theorem rows_tallied {row : Nat} (inside : row < depth) :
    (tallied width depth epsilon delta hasher held).rows[row]? =
      some (tallyRow hasher width held row) := by
  simp [tallied, inside]

@[simp] theorem size_tallyRow (row : Nat) : (tallyRow hasher width held row).size = width :=
  Array.size_ofFn ..

theorem getElem?_tallyRow {c : Nat} (inside : c < width) (row : Nat) :
    (tallyRow hasher width held row)[c]? = some (saturated (share hasher width held row c)) :=
  getElem?_loadedRow inside

theorem share_add (a b : Multiset ByteArray) (row c : Nat) :
    share hasher width (a + b) row c = share hasher width a row c + share hasher width b row c :=
  Multiset.countP_add ..

theorem share_replicate (n : Nat) (data : ByteArray) (row c : Nat) :
    share hasher width (Multiset.replicate n data) row c =
      if column hasher width row data = c then n else 0 := by
  rw [share, ← Multiset.coe_replicate, Multiset.coe_countP, List.countP_replicate]
  simp only [decide_eq_true_eq]

theorem count_le_share (row : Nat) (data : ByteArray) :
    held.count data ≤ share hasher width held row (column hasher width row data) := by
  have inside : Multiset.replicate (held.count data) data ≤ held :=
    Multiset.le_count_iff_replicate_le.mp le_rfl
  calc held.count data
    _ = share hasher width (Multiset.replicate (held.count data) data) row
        (column hasher width row data) := by rw [share_replicate, if_pos rfl]
    _ ≤ _ := Multiset.countP_le_of_le _ inside

theorem tallyRow_modify (data : ByteArray) (n : UInt64) (row : Nat) :
    (tallyRow hasher width held row).modify (column hasher width row data) (saturatingAdd · n) =
      tallyRow hasher width (Multiset.replicate n.toNat data + held) row := by
  refine Array.ext (by simp [tallyRow]) fun c _ _ => ?_
  simp only [tallyRow, Array.getElem_modify, Array.getElem_ofFn, share_add, share_replicate]
  split
  · rw [Nat.add_comm, ← saturatingAdd_saturated, saturated_toNat]
  · rw [Nat.zero_add]

theorem addCount_tallied (inside : 0 < width) (data : ByteArray) (n : UInt64) :
    (tallied width depth epsilon delta hasher held).addCount data n =
      .ok (tallied width depth epsilon delta hasher (Multiset.replicate n.toNat data + held)) := by
  have rows : addToRows (.narrow (hasher.digest data)) width n 0
      ((List.range' 0 depth).map (tallyRow hasher width held)) =
        (List.range' 0 depth).map
          (tallyRow hasher width (Multiset.replicate n.toNat data + held)) := by
    rw [addToRows_range]
    exact List.map_congr_left fun row _ => tallyRow_modify data n row
  have total : saturatingAdd (saturated held.card) n =
      saturated (Multiset.replicate n.toNat data + held).card := by
    rw [Multiset.card_add, Multiset.card_replicate, Nat.add_comm, ← saturatingAdd_saturated,
      saturated_toNat]
  have checked : (tallied width depth epsilon delta hasher held).check = .ok () := check_eq inside
  rw [addCount_of_check checked]
  simp only [tallied, probe, rows, total]

/-- The least number of copies that a counter of the item counts. -/
def estimate (hasher : Hasher) (width depth : Nat) (held : Multiset ByteArray) (data : ByteArray) :
    Nat :=
  ((List.range' 0 depth).map fun row =>
    share hasher width held row (column hasher width row data)).min?.getD 0

theorem le_estimate_iff (rows : 0 < depth) {data : ByteArray} {n : Nat} :
    n ≤ estimate hasher width depth held data ↔
      ∀ row < depth, n ≤ share hasher width held row (column hasher width row data) :=
  le_leastLoad_iff rows

theorem count_le_estimate (rows : 0 < depth) (data : ByteArray) :
    held.count data ≤ estimate hasher width depth held data :=
  (le_estimate_iff rows).mpr fun row _ => count_le_share row data

theorem estimate_le_card (rows : 0 < depth) (data : ByteArray) :
    estimate hasher width depth held data ≤ held.card :=
  ((le_estimate_iff rows).mp le_rfl 0 rows).trans (Multiset.countP_le_card _ _)

theorem estimate_mono {more : Multiset ByteArray} (rows : 0 < depth) (h : held ≤ more)
    (data : ByteArray) :
    estimate hasher width depth held data ≤ estimate hasher width depth more data :=
  (le_estimate_iff rows).mpr fun row hr =>
    ((le_estimate_iff rows).mp le_rfl row hr).trans (Multiset.countP_le_of_le _ h)

/-- The least of the sums is not below the sum of the least. -/
theorem estimate_add_le (rows : 0 < depth) (a b : Multiset ByteArray) (data : ByteArray) :
    estimate hasher width depth a data + estimate hasher width depth b data ≤
      estimate hasher width depth (a + b) data := by
  refine (le_estimate_iff rows).mpr fun row here => ?_
  rw [share_add]
  exact Nat.add_le_add ((le_estimate_iff rows).mp le_rfl row here) ((le_estimate_iff rows).mp le_rfl row here)

theorem count_tallied (inside : 0 < width) (data : ByteArray) :
    (tallied width depth epsilon delta hasher held).count data =
      .ok (saturated (estimate hasher width depth held data)) :=
  count_loaded inside (share hasher width held) held.card data

end CountMin
end Synopsis.Frequency
