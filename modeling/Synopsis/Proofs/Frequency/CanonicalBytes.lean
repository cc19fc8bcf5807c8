import Synopsis.Proofs.Encoding.Forms
import Synopsis.Proofs.Frequency.StoredSketches

/-! What other bytes a stored sketch can be restored from. They differ from the stored form in nothing but numbers that
are written in more bytes than they need, so storing a restored sketch normalises the bytes. -/
namespace Synopsis.Frequency
open Hashing Encoding Numeric

namespace Snapshot

/-- The form of a counter. -/
def counterForms : Reader (List (List UInt8)) := do
  let (_, form) ← Varint.read.traced
  return [form]

/-- Bytes of a text are no numbers. -/
def textForms : Reader (List (List UInt8)) := Varint.formsOfList do
  let _ ← Reader.byte
  return []

/-- The forms of all numbers in a stored sketch, in order. The two accuracies have no other form. -/
def forms : Reader (List (List UInt8)) := do
  let (_, width) ← Varint.read.traced
  let (_, depth) ← Varint.read.traced
  let _ ← Reader.word 8
  let _ ← Reader.word 8
  let count ← counterForms
  let name ← textForms
  let matrix ← Varint.formsOfList (Varint.formsOfList counterForms)
  return [width, depth] ++ count ++ name ++ matrix

theorem mirrors_readCount : Mirrors readCount counterForms fun used w forms => Spelled used forms (encodeCount w) := by
  refine Varint.mirrors_read.map ?_
  rintro used n _ ⟨rfl, form⟩
  have same : n.toUInt64.toNat = n := Nat.mod_eq_of_lt form.lt
  rw [encodeCount, same]
  exact .number form

theorem toUTF8_of_fromUTF8? {bytes : ByteArray} {s : String} (valid : String.fromUTF8? bytes = some s) :
    s.toUTF8 = bytes := by
  rw [String.fromUTF8?] at valid
  split at valid
  · cases valid
    rfl
  · cases valid

theorem mirrors_readText : Mirrors readText textForms fun used s forms =>
    s.toUTF8.data.toList.length < UInt64.size ∧ Spelled used forms (encodeText s) := by
  have byte : Mirrors Reader.byte (do let _ ← Reader.byte; return []) fun used b forms =>
      True ∧ Spelled used forms [b] := by
    refine Mirrors.byte.map_right ?_
    rintro _ b _ ⟨rfl, -⟩
    exact ⟨trivial, .plain [b]⟩
  intro bytes s rest run
  obtain ⟨values, after, listed, decoded⟩ := Reader.bind_eq_ok.mp run
  obtain ⟨used, forms, split, taken, ⟨fits, -⟩, spelled⟩ := Varint.mirrors_readList byte _ _ _ listed
  cases valid : String.fromUTF8? values.toByteArray with
  | none =>
    rw [valid] at decoded
    cases decoded
  | some text =>
    rw [valid] at decoded
    cases decoded
    have same : s.toUTF8.data.toList = values := by
      rw [toUTF8_of_fromUTF8? valid, List.data_toByteArray]
    refine ⟨used, forms, split, taken, same.symm ▸ fits, ?_⟩
    rw [encodeText, same]
    exact spelled

theorem mirrors_word : Mirrors (Reader.word 8) (Reader.word 8) fun used n _ =>
    Spelled used [] (encodeWord n.toUInt64) := by
  refine (Mirrors.word 8).imp ?_
  rintro used _ _ ⟨length, rfl, -⟩
  have bound := LittleEndian.ofBytes_lt used
  have back := toBytes_ofBytes used
  rw [length] at bound back
  have same : (LittleEndian.ofBytes used).toUInt64.toNat = LittleEndian.ofBytes used := Nat.mod_eq_of_lt bound
  rw [encodeWord, same, back]
  exact .plain used

theorem mirrors_forms : Mirrors read forms fun used s forms => s.Fits ∧ Spelled used forms s.toBytes := by
  refine Varint.mirrors_read.bind ?_
  rintro width n _ ⟨rfl, wide⟩
  refine Varint.mirrors_read.bind ?_
  rintro depth m _ ⟨rfl, deep⟩
  refine mirrors_word.bind fun epsilon _ _ accuracy => ?_
  refine mirrors_word.bind fun delta _ _ confidence => ?_
  refine mirrors_readCount.bind fun count _ _ total => ?_
  refine mirrors_readText.bind ?_
  rintro name text _ ⟨short, named⟩
  have counter := mirrors_readCount.imp fun used w forms spelled => And.intro trivial spelled
  refine (Varint.mirrors_readList (Varint.mirrors_readList counter)).map ?_
  rintro matrix rows _ ⟨⟨few, each⟩, tabled⟩
  refine ⟨⟨wide.lt, deep.lt, short, few, fun row member => (each row member).1⟩, ?_⟩
  simp only [toBytes, List.append_assoc]
  exact (Spelled.number wide).append <| (Spelled.number deep).append <| accuracy.append <| confidence.append <|
    total.append <| named.append tabled

end Snapshot

namespace CountMin
variable {s : CountMin}

theorem ofName?_eq_some {name : String} {hasher : Hasher} (named : Hasher.ofName? name = some hasher) :
    hasher ∈ Hasher.builtIn ∧ hasher.name = name :=
  ⟨List.mem_of_find?_eq_some named, eq_of_beq (List.find?_some (p := fun h : Hasher => h.name == name) named)⟩

/-- What is accepted as plain data is given back as the same data. -/
theorem snapshot_ofSnapshot {snapshot : Snapshot} (run : ofSnapshot snapshot = .ok s) : s.snapshot = snapshot := by
  obtain ⟨hasher, named, depth, -, rfl⟩ := ofSnapshot_eq_ok_iff.mp run
  have matrix : (snapshot.matrix.map List.toArray).map Array.toList = snapshot.matrix := by
    rw [List.map_map]
    exact List.map_id'' (fun row => row.toList_toArray) snapshot.matrix
  have rows : (snapshot.matrix.map List.toArray).length = snapshot.depth := (List.length_map _).trans depth
  simp only [CountMin.snapshot, CountMin.depth, matrix, rows, (ofName?_eq_some named).2]

theorem ofBytes_toBytes {snapshot : Snapshot} (fits : snapshot.Fits) (run : ofSnapshot snapshot = .ok s) :
    ofBytes s.toBytes = .ok s := by
  have whole := (Snapshot.reads_toBytes fits).whole []
  rw [List.append_nil] at whole
  rw [ofBytes, CountMin.toBytes, snapshot_ofSnapshot run, whole]
  exact run

/-- Bytes that a sketch is restored from say how many rows of how many counters it has. Stored again, the sketch takes
no more bytes than those that were read, and the same ones just if no number in them could have been shorter; and it is
restored from these as it was. A sketch rebuilt from plain data has the same data. -/
theorem restored_bytes_are_canonical :
    (∀ bytes s, ofBytes bytes = .ok s → ∃ used rest forms snapshot,
      bytes = used ++ rest ∧ Snapshot.read bytes = .ok (snapshot, rest) ∧ Snapshot.forms bytes = .ok (forms, rest) ∧
      (∀ form ∈ forms, ∃ n, Varint.read form = .ok (n, [])) ∧
      s.snapshot = snapshot ∧ s.rows.length = snapshot.depth ∧ (∀ row ∈ s.rows, row.size = snapshot.width) ∧
      s.toBytes.length ≤ used.length ∧
      (s.toBytes = used ↔ ∀ form ∈ forms, Varint.Shortest form) ∧
      ofBytes s.toBytes = .ok s) ∧
    ∀ snapshot s, ofSnapshot snapshot = .ok s → s.snapshot = snapshot := by
  refine ⟨fun bytes s restored => ?_, fun _ _ run => snapshot_ofSnapshot run⟩
  unfold ofBytes at restored
  split at restored
  next snapshot rest decoded =>
    obtain ⟨used, forms, split, listed, fits, spelled⟩ := Snapshot.mirrors_forms _ _ _ decoded
    have same := snapshot_ofSnapshot restored
    have stored : s.toBytes = snapshot.toBytes := congrArg Snapshot.toBytes same
    have rectangular := rectangular_ofSnapshot restored
    have again := ofBytes_toBytes fits restored
    obtain ⟨hasher, -, depth, -, rfl⟩ := ofSnapshot_eq_ok_iff.mp restored
    exact ⟨used, rest, forms, snapshot, split, decoded, listed, spelled.numbers, same, (List.length_map _).trans depth,
      rectangular, stored ▸ spelled.length, stored ▸ spelled.same, again⟩
  next => cases restored

/-- One counter, with three of seven numbers wider than they need to be, and one byte after all. -/
private def overlong : List UInt8 :=
  [251, 1, 0, 1] ++ List.replicate 16 0 ++
    [252, 5, 0, 0, 0, 10, 109, 117, 114, 109, 117, 114, 45, 102, 110, 118, 1, 1, 253, 7, 0, 0, 0, 0, 0, 0, 0, 9]

private def single : CountMin := ⟨1, [#[7]], 0, 0, 5, .murmurFnv⟩

theorem overlong_numbers_are_normalised :
    ofBytes overlong = .ok single ∧
      Snapshot.forms overlong =
        .ok ([[251, 1, 0], [1], [252, 5, 0, 0, 0], [10], [1], [1], [253, 7, 0, 0, 0, 0, 0, 0, 0]], [9]) ∧
      single.toBytes.length ≤ overlong.dropLast.length ∧ single.toBytes ≠ overlong.dropLast ∧
      ofBytes single.toBytes = .ok single := by
  have restored : ofBytes overlong = .ok single := rfl
  have listed : Snapshot.forms overlong =
      .ok ([[251, 1, 0], [1], [252, 5, 0, 0, 0], [10], [1], [1], [253, 7, 0, 0, 0, 0, 0, 0, 0]], [9]) := rfl
  obtain ⟨used, rest, forms, snapshot, split, -, same, -, -, -, -, short, shortest_iff, again⟩ :=
    restored_bytes_are_canonical.1 overlong single restored
  cases listed.symm.trans same
  have prefixed : overlong.dropLast = used := by rw [split, List.dropLast_concat]
  rw [prefixed]
  refine ⟨restored, listed, short, fun stored => ?_, again⟩
  -- the width is one and takes one byte
  have least := shortest_iff.mp stored [251, 1, 0] List.mem_cons_self 1 [1] rfl rfl
  exact absurd least (by decide)

end CountMin
end Synopsis.Frequency
