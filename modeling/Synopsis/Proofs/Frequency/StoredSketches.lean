import Synopsis.Proofs.Encoding.Reads
import Synopsis.Proofs.Frequency.CountMinShapes
import Synopsis.Proofs.Hashing.LeadingBytes

/-! The stored form of Count-Min sketches: what is read back from it, and that no part of it is taken for
the whole. -/
namespace Synopsis.Frequency
open Hashing Encoding Numeric

namespace Snapshot

/-- All measures and lengths are 64-bit counts. -/
structure Fits (s : Snapshot) : Prop where
  width : s.width < UInt64.size
  depth : s.depth < UInt64.size
  name : s.hasherName.toUTF8.data.toList.length < UInt64.size
  matrix : s.matrix.length < UInt64.size
  rows : ∀ row ∈ s.matrix, row.length < UInt64.size

private theorem fromUTF8?_toUTF8 (s : String) :
    String.fromUTF8? s.toUTF8.data.toList.toByteArray = some s := by
  have same : s.toUTF8.data.toList.toByteArray = s.toUTF8 :=
    ByteArray.ext (by rw [List.data_toByteArray, Array.toArray_toList])
  rw [same]
  exact dif_pos s.isValidUTF8

theorem reads_encodeText {s : String} (fits : s.toUTF8.data.toList.length < UInt64.size) :
    Reads readText (encodeText s) s := by
  have bytes : Reads (Varint.readList Reader.byte) (encodeText s) s.toUTF8.data.toList :=
    Varint.reads_encodeList fits fun b _ => Reads.byte b
  refine bytes.last ?_
  simp only [fromUTF8?_toUTF8]
  exact Reads.pure s

theorem reads_encodeWord (w : UInt64) : Reads (Reader.word 8) (encodeWord w) w.toNat :=
  Reads.word w.toNat_lt

theorem reads_encodeCount (w : UInt64) : Reads readCount (encodeCount w) w := by
  have count : Reads readCount (encodeCount w) w.toNat.toUInt64 :=
    (Varint.reads_encode w.toNat_lt_size).map
  rwa [Nat.toUInt64_eq, UInt64.ofNat_toNat] at count

theorem reads_toBytes {s : Snapshot} (fits : s.Fits) : Reads read s.toBytes s := by
  have matrix := Varint.reads_encodeList fits.matrix fun row member =>
    Varint.reads_encodeList (fits.rows row member) fun w _ => reads_encodeCount w
  have name := reads_encodeText fits.name
  simp only [toBytes, List.append_assoc]
  refine (Varint.reads_encode fits.width).bind ?_
  refine (Varint.reads_encode fits.depth).bind ?_
  refine (reads_encodeWord s.epsilon).bind ?_
  refine (reads_encodeWord s.delta).bind ?_
  refine (reads_encodeCount s.count).bind ?_
  refine name.bind (matrix.last ?_)
  simp only [Nat.toUInt64_eq, UInt64.ofNat_toNat]
  exact Reads.pure s

end Snapshot

namespace CountMin
variable {s : CountMin}

private theorem name_size_lt {hasher : Hasher} (known : hasher ∈ Hasher.builtIn) :
    hasher.name.toUTF8.data.toList.length < UInt64.size := by
  simp only [Hasher.builtIn, List.mem_cons, List.not_mem_nil, or_false] at known
  rcases known with rfl | rfl
  · decide
  · decide

theorem Storable.fits (h : s.Storable) (known : s.hasher ∈ Hasher.builtIn) : s.snapshot.Fits where
  width := h.width_lt
  depth := h.depth_lt
  name := name_size_lt known
  matrix := (List.length_map _).trans_lt h.depth_lt
  rows := by
    intro row member
    obtain ⟨counters, kept, rfl⟩ := List.mem_map.mp member
    exact (h.rectangular counters kept).trans_lt h.width_lt

theorem ofSnapshot_snapshot (h : s.Rectangular) (known : s.hasher ∈ Hasher.builtIn) :
    ofSnapshot s.snapshot = .ok s := by
  refine ofSnapshot_eq_ok_iff.mpr ⟨_, Hasher.ofName?_name known, List.length_map _, ?_, ?_⟩
  · intro row member
    obtain ⟨counters, kept, rfl⟩ := List.mem_map.mp member
    exact h counters kept
  · have rows : (s.rows.map Array.toList).map List.toArray = s.rows := by
      rw [List.map_map]
      exact List.map_id'' (fun row => row.toArray_toList) s.rows
    simp only [snapshot, rows]

/-- A sketch with a built-in hasher is read back from its bytes, whatever follows them. Bytes cut short
anywhere are refused for their end. -/
theorem stored_bytes_read_back (reached : Reachable s) (known : s.hasher ∈ Hasher.builtIn) :
    (∀ rest, ofBytes (s.toBytes ++ rest) = .ok s) ∧
      ∀ cut, cut <+: s.toBytes → cut ≠ s.toBytes →
        ofBytes cut = .error (.encoding .unexpectedEnd) := by
  have storable := reached.storable
  have reads : Reads Snapshot.read s.toBytes s.snapshot :=
    Snapshot.reads_toBytes (storable.fits known)
  refine ⟨fun rest => ?_, fun cut part short => ?_⟩
  · rw [ofBytes, reads.whole]
    exact ofSnapshot_snapshot storable.rectangular known
  · rw [ofBytes, reads.short cut part short]

/-- One row of two counters. -/
private def pair (left right total : UInt64) (hasher : Hasher) : CountMin :=
  ⟨2, [#[left, right]], 1, 2, total, hasher⟩

/-- Two sketches are merged, and a counter of four bytes comes to stand beside a full one. -/
theorem uneven_counters_read_back :
    let s := pair 65536 18446744073709551615 18446744073709551615 .murmurFnv
    Reachable s ∧ s.hasher ∈ Hasher.builtIn ∧ ofBytes (s.toBytes ++ [255]) = .ok s ∧
      ofBytes (s.toBytes.take 40) = .error (.encoding .unexpectedEnd) := by
  intro s
  have made : Reachable (empty 2 1 1 2 .leadingBytes) := .empty 1 2 _ (by decide) (by decide)
  have fresh : Reachable (pair 0 0 0 .leadingBytes) := made
  have left : (pair 0 0 0 .leadingBytes).addCount (Hasher.dataOf 0 0) 65536 =
      .ok (pair 65536 0 65536 .leadingBytes) := rfl
  have right : (pair 0 0 0 .leadingBytes).addCount (Hasher.dataOf 1 0) 18446744073709551615 =
      .ok (pair 0 18446744073709551615 18446744073709551615 .leadingBytes) := rfl
  have both : (pair 65536 0 65536 .leadingBytes).merge
      (pair 0 18446744073709551615 18446744073709551615 .leadingBytes) =
        .ok (pair 65536 18446744073709551615 18446744073709551615 .leadingBytes) := by
    simp [merge, depth, pair]
    decide
  have reached : Reachable s :=
    ((fresh.addCount left).merge (fresh.addCount right) both).withHasher .murmurFnv
  have known : s.hasher ∈ Hasher.builtIn := List.mem_cons_of_mem _ (List.mem_singleton_self _)
  obtain ⟨whole, short⟩ := stored_bytes_read_back reached known
  refine ⟨reached, known, whole [255], short _ (List.take_prefix ..) fun same => ?_⟩
  have lengths : (s.toBytes.take 40).length = s.toBytes.length := congrArg List.length same
  revert lengths
  decide

end CountMin
end Synopsis.Frequency
