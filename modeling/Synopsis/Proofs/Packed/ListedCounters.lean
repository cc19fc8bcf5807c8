import Synopsis.Proofs.Packed.CellUpdates

/-! Packed counters as a plain list of numbers. After any updates, failed ones included, every view of the
counters is a function of the list: single counters, the counters in order, their sum, how many are not zero,
and the bytes. -/
namespace Synopsis.Packed.Counters
open Numeric

/-- A change to an array of counters. -/
inductive Update
  | set (i value : Nat)
  | adjust (i : Nat) (amount : Int)
  | clear

def update (c : Counters) : Update → Outcome Counters
  | .set i value => c.set i value
  | .adjust i amount => c.adjust i amount
  | .clear => .ok c.clear

/-- The same changes to a list of numbers from zero to `top`. -/
def updateList (top : Nat) (values : List Nat) : Update → Outcome (List Nat)
  | .set i value =>
    if i < values.length then .ok (values.set i (min value top)) else .error (.outOfBounds i values.length)
  | .adjust i amount =>
    if h : i < values.length then .ok (values.set i (Max.max 0 (min (values[i] + amount) top)).toNat)
    else .error (.outOfBounds i values.length)
  | .clear => .ok (List.replicate values.length 0)

/-- The counters hold the values, and nothing stands after them. -/
structure Lists (n w : Nat) (c : Counters) (values : List Nat) : Prop extends Sound n w c where
  length : values.length = n
  read : ∀ i (h : i < values.length), c.read i = values[i]

section Steps
variable {size width : Nat} {c : Counters} {values : List Nat}

theorem zeros_lists (size width : Nat) : Lists size width (zeros size width) (List.replicate size 0) :=
  ⟨zeros_sound size width, List.length_replicate, fun i h => by rw [List.getElem_replicate, read_zeros]⟩

theorem Lists.write (h : Lists size width c values) {i value : Nat} (inside : i < c.size) (fits : value ≤ c.max) :
    Lists size width (c.write i value) (values.set i value) := by
  refine ⟨h.toSound.write i value, List.length_set.trans h.length, fun j there => ?_⟩
  rw [List.length_set] at there
  rw [read_write inside fits, List.getElem_set]
  split
  next => rfl
  next => exact h.read j there

theorem Lists.inside_iff (h : Lists size width c values) (i : Nat) : i < c.size ↔ i < values.length := by
  rw [h.size, h.length]

theorem Lists.update (h : Lists size width c values) (change : Update) :
    Parallel (Lists size width) (c.update change) (updateList (2 ^ width - 1) values change) := by
  have past (i : Nat) : Failure.outOfBounds i c.size = .outOfBounds i values.length := by rw [h.size, h.length]
  cases change with
  | set i value =>
    by_cases inside : i < c.size
    · have there := (h.inside_iff i).mp inside
      simp only [Counters.update, updateList, set_of_lt inside, if_pos there, ← h.toSound.max]
      exact .ok (h.write inside (min_le_right ..))
    · have outside := (h.inside_iff i).not.mp inside
      simp only [Counters.update, updateList, Counters.set, if_neg inside, if_neg outside, past]
      exact .error _
  | adjust i amount =>
    by_cases inside : i < c.size
    · have there := (h.inside_iff i).mp inside
      have clamped : min (c.read i + amount).toNat c.max =
          (Max.max 0 (min (values[i] + amount) (c.max : Int))).toNat := by
        rw [h.read i there]
        omega
      simp only [Counters.update, updateList, adjust_of_lt inside, dif_pos there, ← h.toSound.max, ← clamped]
      exact .ok (h.write inside (min_le_right ..))
    · have outside := (h.inside_iff i).not.mp inside
      simp only [Counters.update, updateList, Counters.adjust, if_neg inside, dif_neg outside, past]
      exact .error _
  | clear =>
    simp only [Counters.update, updateList, clear, h.size, h.width, h.length]
    exact .ok (zeros_lists size width)

end Steps

section Views
variable {size width : Nat} {c : Counters} {values : List Nat}

theorem Lists.get (h : Lists size width c values) (i : Nat) :
    c.get i = if h : i < values.length then .ok values[i] else .error (.outOfBounds i size) := by
  split
  next there => rw [get_of_lt ((h.inside_iff i).mpr there), h.read i there]
  next past => rw [Counters.get, if_neg ((h.inside_iff i).not.mpr past), h.size]

theorem Lists.toList (h : Lists size width c values) : c.toList = values := by
  apply List.ext_getElem
  · rw [Counters.toList, List.length_map, List.length_range, h.size, h.length]
  · intro i _ there
    rw [← h.read i there]
    simp [Counters.toList]

theorem Lists.sum (h : Lists size width c values) : c.sum = values.sum := by
  rw [Counters.sum, h.toList, List.sum_eq_foldl]

/-- For counters of one bit the bytes are counted, for others the counters. -/
theorem Lists.nonzero (h : Lists size width c values) : c.nonzero = values.countP (· ≠ 0) := by
  rw [Counters.nonzero, h.toList]
  split
  next one =>
    have bit (i : Nat) : c.read i = (c.bits.get i).toNat := by simp [Counters.read, one, Bitmap.field]
    rw [h.padded.population, c.size_bits, one, Nat.mul_one, ← h.toList, Counters.toList, List.countP_map]
    apply List.countP_congr
    intro i _
    rw [Function.comp_apply, bit]
    cases c.bits.get i <;> simp
  next => rfl

theorem Sound.lists (h : Sound size width c) : Lists size width c c.toList :=
  ⟨h, by simp [Counters.toList, h.size], fun i _ => by simp [Counters.toList]⟩

theorem Sound.nonzero (h : Sound size width c) : c.nonzero = c.support.card := by
  rw [h.lists.nonzero, Counters.toList, List.countP_map, List.countP_eq_length_filter]
  rfl

theorem Lists.length_toBytes (h : Lists size width c values) :
    c.toBytes.length = (size * width + 7) / 8 := by
  rw [toBytes, Array.length_toList, c.bits.size_bytes, c.size_bits, h.size, h.width]

theorem Lists.ofBytes_toBytes (h : Lists size width c values) : LittleEndian.ofBytes c.toBytes =
    ∑ i : Fin values.length, values[i] * 2 ^ (width * i) := by
  rw [toBytes, h.padded.ofBytes, c.size_bits, Bitmap.field_mul, h.size, h.width, ← h.length, Finset.sum_range]
  apply Finset.sum_congr rfl
  intro i _
  have value := h.read i i.isLt
  rw [Counters.read, h.width] at value
  rw [Nat.zero_add, value]
  rfl

end Views

/-- Runs on packed counters and on the list of their values give the same answers, and after every run all
views of the counters agree with the list. -/
theorem updates_refine_list (size width : Nat) (changes : List Update) :
    let packed := attempt update (zeros size width) changes
    let listed := attempt (updateList (2 ^ width - 1)) (List.replicate size 0) changes
    let c := packed.2
    let values := listed.2
    (1 ≤ width → width ≤ 8 → size * width < UInt64.size → new size width = .ok (zeros size width)) ∧
    packed.1 = listed.1 ∧
    values.length = size ∧
    (∀ i, c.get i = if h : i < values.length then .ok values[i] else .error (.outOfBounds i size)) ∧
    c.toList = values ∧
    c.sum = values.sum ∧
    c.nonzero = values.countP (· ≠ 0) ∧
    c.toBytes.length = (size * width + 7) / 8 ∧
    LittleEndian.ofBytes c.toBytes = ∑ i : Fin values.length, values[i] * 2 ^ (width * i) := by
  intro packed listed c values
  have new_eq (low : 1 ≤ width) (high : width ≤ 8) (room : size * width < UInt64.size) :
      new size width = .ok (zeros size width) := by
    simp only [new, checkShape, low, high, room, decide_true, Bool.and_true]
    rfl
  obtain ⟨answers, lists⟩ := attempt_parallel (fun _ _ change h => h.update change)
    (zeros_lists size width) changes
  exact ⟨new_eq, answers, lists.length, lists.get, lists.toList, lists.sum, lists.nonzero,
    lists.length_toBytes, lists.ofBytes_toBytes⟩

end Synopsis.Packed.Counters
