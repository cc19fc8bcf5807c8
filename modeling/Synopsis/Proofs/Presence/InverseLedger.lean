import Synopsis.Presence.Inverse
import Synopsis.Proofs.Hashing.LeadingBytes
import Mathlib

/-! The inverse filter as a ledger of copies. Each write puts one copy of its item into a slot and takes the
previous occupant out, so what was written is what was displaced and what still occupies a slot, wherever the
slot of an item lies at the time. -/
namespace Synopsis.Presence.Inverse
open Hashing

inductive Call where
  | replace (data : ByteArray)
  | insert (data : ByteArray)
  | contains (data : ByteArray)
  | containsThenInsert (data : ByteArray)
  | withHasher (hasher : Hasher)
  | clear

/-- The previous occupant of a slot, or whether an item was there, where a call asks for it. -/
inductive Reply where
  | previous (occupant : Option ByteArray)
  | member (found : Bool)
  | done
  deriving DecidableEq

def step (f : Inverse) : Call → Reply × Inverse
  | .replace data => (.previous (f.replace data).1, (f.replace data).2)
  | .insert data => (.done, f.insert data)
  | .contains data => (.member (f.contains data), f)
  | .containsThenInsert data => (.member (f.containsThenInsert data).1, (f.containsThenInsert data).2)
  | .withHasher hasher => (.done, f.withHasher hasher)
  | .clear => (.done, f.clear)

/-- The item that a call writes. -/
def Call.item? : Call → Option ByteArray
  | .replace data | .insert data | .containsThenInsert data => some data
  | _ => none

def Call.clears : Call → Bool
  | .clear => true
  | _ => false

/-- A call, the filter that it met and its reply. -/
structure Entry where
  before : Inverse
  call : Call
  reply : Reply

/-- The occupant of the slot that a call overwrites. -/
def Entry.displaced? (entry : Entry) : Option ByteArray := entry.call.item?.bind entry.before.occupant?

/-- Serves calls in order and keeps an entry of each. -/
def run (f : Inverse) : List Call → List Entry × Inverse
  | [] => ([], f)
  | call :: rest =>
    let (reply, g) := f.step call
    let (log, g) := run g rest
    (⟨f, call, reply⟩ :: log, g)

/-- The entries since the last clearing. -/
def recent (log : List Entry) : List Entry := log.rtakeWhile fun entry => !entry.call.clears

/-- The copies written since the last clearing. -/
def written (log : List Entry) : Multiset ByteArray := (recent log).filterMap fun entry => entry.call.item?

/-- The copies displaced by writes since the last clearing. -/
def displaced (log : List Entry) : Multiset ByteArray := (recent log).filterMap Entry.displaced?

/-- The copies in the slots. -/
def occupants (f : Inverse) : Multiset ByteArray := f.slots.toList.reduceOption

section Slots
variable {α : Type} {f : Inverse} {data : ByteArray}

theorem coe_reduceOption_cons (slot : Option α) (rest : List (Option α)) :
    ((slot :: rest).reduceOption : Multiset α) = slot.toList + rest.reduceOption := by
  cases slot with
  | none => exact (zero_add _).symm
  | some item => rfl

/-- Writing one slot exchanges what it held for what it holds now. -/
theorem reduceOption_set (slots : List (Option α)) (content : Option α) {i : Nat} (inside : i < slots.length) :
    ((slots.set i content).reduceOption : Multiset α) + slots[i].toList = slots.reduceOption + content.toList := by
  induction slots generalizing i with
  | nil => exact absurd inside (Nat.not_lt_zero i)
  | cons slot rest ih =>
    cases i with
    | zero =>
      simp only [List.set_cons_zero, List.getElem_cons_zero, coe_reduceOption_cons]
      abel
    | succ i =>
      have there := ih (Nat.lt_of_succ_lt_succ inside)
      simp only [List.set_cons_succ, List.getElem_cons_succ, coe_reduceOption_cons, add_assoc, there]

theorem index_lt (pos : 0 < f.capacity) (data : ByteArray) : f.index data < f.slots.size := Nat.mod_lt _ pos

theorem occupants_insert (pos : 0 < f.capacity) (data : ByteArray) :
    (f.insert data).occupants + (f.occupant? data).toList = f.occupants + {data} := by
  have inside : f.index data < f.slots.toList.length := index_lt pos data
  have slot : f.occupant? data = f.slots.toList[f.index data] := by
    rw [occupant?, ← Array.getElem?_toList, List.getElem?_eq_getElem inside]
    rfl
  rw [slot, occupants, insert, Array.toList_setIfInBounds]
  exact reduceOption_set _ _ inside

theorem occupants_empty (capacity : Nat) (hasher : Hasher) : (empty capacity hasher).occupants = 0 := by
  simp [occupants, empty]

/-- An item is found only in a slot that it occupies. -/
theorem mem_occupants_of_occupant? (h : f.occupant? data = some data) : data ∈ f.occupants := by
  have there : f.slots[f.index data]? = some (some data) := Option.join_eq_some_iff.mp h
  rw [← Array.getElem?_toList] at there
  exact Multiset.mem_coe.mpr (List.reduceOption_mem_iff.mpr (List.mem_of_getElem? there))

end Slots

section Runs
variable {f : Inverse} {log : List Entry} {entry : Entry}

theorem run_append (f : Inverse) (calls more : List Call) :
    run f (calls ++ more) =
      ((run f calls).1 ++ (run (run f calls).2 more).1, (run (run f calls).2 more).2) := by
  induction calls generalizing f with
  | nil => rfl
  | cons call rest ih => simp only [List.cons_append, run, ih]

theorem run_concat (f : Inverse) (calls : List Call) (call : Call) :
    run f (calls ++ [call]) = ((run f calls).1 ++ [⟨(run f calls).2, call, ((run f calls).2.step call).1⟩],
      ((run f calls).2.step call).2) := run_append f calls [call]

theorem reply_of_mem_run {calls : List Call} (listed : entry ∈ (run f calls).1) :
    entry.reply = (entry.before.step entry.call).1 := by
  induction calls generalizing f with
  | nil => exact absurd listed List.not_mem_nil
  | cons call rest ih =>
    rcases List.mem_cons.mp listed with rfl | later
    · rfl
    · exact ih later

theorem recent_concat (log : List Entry) (entry : Entry) :
    recent (log ++ [entry]) = if entry.call.clears then [] else recent log ++ [entry] := by
  rw [recent, List.rtakeWhile_concat]
  cases entry.call.clears <;> rfl

theorem filterMap_recent_concat (kept : entry.call.clears = false) (take : Entry → Option ByteArray) :
    ((recent (log ++ [entry])).filterMap take : Multiset ByteArray) =
      (recent log).filterMap take + (take entry).toList := by
  have one : [entry].filterMap take = (take entry).toList := by
    cases item : take entry <;> simp [item]
  rw [recent_concat, kept, if_neg Bool.false_ne_true, List.filterMap_append, one, Multiset.coe_add]

theorem written_concat (kept : entry.call.clears = false) :
    written (log ++ [entry]) = written log + entry.call.item?.toList := filterMap_recent_concat kept _

theorem displaced_concat (kept : entry.call.clears = false) :
    displaced (log ++ [entry]) = displaced log + entry.displaced?.toList := filterMap_recent_concat kept _

/-- What was written has been displaced or occupies a slot. -/
structure Balanced (capacity : Nat) (log : List Entry) (f : Inverse) : Prop where
  capacity : f.capacity = capacity
  balance : written log = displaced log + f.occupants

theorem Balanced.write {capacity : Nat} (h : Balanced capacity log f) (pos : 0 < capacity) {call : Call} {reply : Reply}
    {data : ByteArray} (kept : call.clears = false) (item : call.item? = some data) :
    Balanced capacity (log ++ [⟨f, call, reply⟩]) (f.insert data) := by
  have room : 0 < f.capacity := h.capacity.symm ▸ pos
  have displaced : Entry.displaced? ⟨f, call, reply⟩ = f.occupant? data := by
    rw [Entry.displaced?, item]
    rfl
  refine ⟨(Array.size_setIfInBounds ..).trans h.capacity, ?_⟩
  rw [written_concat kept, displaced_concat kept, item, displaced, h.balance, add_assoc, add_assoc,
    add_comm _ (f.insert data).occupants, occupants_insert room]
  rfl

theorem Balanced.keep {capacity : Nat} (h : Balanced capacity log f) {call : Call} {reply : Reply} {g : Inverse}
    (kept : call.clears = false) (item : call.item? = none) (slots : g.slots = f.slots) :
    Balanced capacity (log ++ [⟨f, call, reply⟩]) g := by
  have displaced : Entry.displaced? ⟨f, call, reply⟩ = none := by
    rw [Entry.displaced?, item]
    rfl
  refine ⟨(congrArg Array.size slots).trans h.capacity, ?_⟩
  rw [written_concat kept, displaced_concat kept, item, displaced, h.balance, occupants, occupants, slots]
  simp

theorem Balanced.step {capacity : Nat} (h : Balanced capacity log f) (pos : 0 < capacity) (call : Call) :
    Balanced capacity (log ++ [⟨f, call, (f.step call).1⟩]) (f.step call).2 := by
  cases call with
  | replace data => exact h.write pos rfl rfl
  | insert data => exact h.write pos rfl rfl
  | contains data => exact h.keep rfl rfl rfl
  | containsThenInsert data => exact h.write pos rfl rfl
  | withHasher hasher => exact h.keep rfl rfl rfl
  | clear =>
    refine ⟨Array.size_replicate.trans h.capacity, ?_⟩
    rw [written, displaced, recent_concat]
    exact (occupants_empty f.capacity f.hasher).symm

theorem balanced_run {capacity : Nat} (pos : 0 < capacity) (hasher : Hasher) (calls : List Call) :
    Balanced capacity (run (empty capacity hasher) calls).1 (run (empty capacity hasher) calls).2 := by
  induction calls using List.reverseRecOn with
  | nil => exact ⟨Array.size_replicate, (occupants_empty capacity hasher).symm⟩
  | append_singleton calls call ih =>
    rw [run_concat]
    exact ih.step pos call

theorem Balanced.mem_written {capacity : Nat} (h : Balanced capacity log f) {data : ByteArray}
    (occupied : f.occupant? data = some data) : data ∈ written log := by
  rw [h.balance]
  exact Multiset.mem_add.mpr (.inr (mem_occupants_of_occupant? occupied))

/-- Nothing is lost unseen and nothing is invented, even where the hasher is switched while items are in their
slots: the copies written since the last clearing are those displaced, which the writes returned, and those in the
slots. So an item is found only where it was written since. -/
theorem written_eq_displaced_add_occupants (capacity : Nat) (hasher : Hasher) (calls : List Call) (pos : 0 < capacity) :
    let log := (run (empty capacity hasher) calls).1
    let f := (run (empty capacity hasher) calls).2
    written log = displaced log + f.occupants ∧
    (∀ entry ∈ log, ∀ data,
      (entry.call = .replace data → entry.reply = .previous entry.displaced?) ∧
      (entry.call = .containsThenInsert data → entry.reply = .member (entry.displaced? == some data))) ∧
    (∀ data, f.contains data = true ∨ (f.containsThenInsert data).1 = true → data ∈ written log) ∧
    (∀ data, data ∉ written log → (f.containsThenInsert data).1 = false) := by
  intro log f
  have balanced : Balanced capacity log f := balanced_run pos hasher calls
  have found (data : ByteArray) (same : (f.occupant? data == some data) = true) : data ∈ written log :=
    balanced.mem_written (eq_of_beq same)
  refine ⟨balanced.balance, fun entry listed data => ?_, fun data member => ?_, fun data fresh => ?_⟩
  · have reply := reply_of_mem_run listed
    constructor
    · intro call
      rw [reply, Entry.displaced?, call]
      rfl
    · intro call
      rw [reply, Entry.displaced?, call]
      rfl
  · exact member.elim (found data) (found data)
  · exact Bool.eq_false_iff.mpr (mt (found data) fresh)

end Runs

/-- The number in the last byte instead of the first. -/
private def lastByte : Hasher := ⟨"last-byte", fun data => .ofBytes (data.data.toList.drop 4)⟩

/-- One item is written to two slots, and the first of the two is then overwritten by another item. -/
private def switching : List Call :=
  [.replace (Hasher.dataOf 1 2), .withHasher lastByte, .containsThenInsert (Hasher.dataOf 1 2),
    .replace (Hasher.dataOf 5 1)]

theorem switching_balances :
    let log := (run (empty 3 .leadingBytes) switching).1
    let f := (run (empty 3 .leadingBytes) switching).2
    0 < 3 ∧ written log = displaced log + f.occupants ∧
      log.map Entry.reply = [.previous none, .done, .member false, .previous (some (Hasher.dataOf 1 2))] ∧
      f.contains (Hasher.dataOf 1 2) = true ∧ Hasher.dataOf 1 2 ∈ written log ∧
      (f.containsThenInsert (Hasher.dataOf 5 2)).1 = false := by
  intro log f
  obtain ⟨balance, -, found, fresh⟩ := written_eq_displaced_add_occupants 3 .leadingBytes switching (by decide)
  have there : f.contains (Hasher.dataOf 1 2) = true := by decide
  have unwritten : Hasher.dataOf 5 2 ∉ written log := by decide
  exact ⟨by decide, balance, by decide, there, found _ (.inl there), fresh _ unwritten⟩

end Synopsis.Presence.Inverse
