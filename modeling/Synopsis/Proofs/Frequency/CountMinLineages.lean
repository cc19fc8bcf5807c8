import Synopsis.Proofs.Frequency.CountMinMerges

/-! Sketches built from empty ones by additions, clearings and merges in any order. A lineage stands for a
weighted stream, and its sketch is the one that is fed this stream, so that merging sketches is joining
streams. -/
namespace Synopsis.Frequency.CountMin
open Numeric Hashing

/-- The parameters that a sketch keeps, with a counter for every item in at least one row. -/
structure Frame where
  width : Nat
  depth : Nat
  epsilon : UInt64
  delta : UInt64
  inside : 0 < width
  rows : 0 < depth

/-- The sketch without items. -/
def Frame.new (frame : Frame) (hasher : Hasher) : CountMin :=
  empty frame.width frame.depth frame.epsilon frame.delta hasher

/-- As many rows, and as many counters in each. The accuracies may differ. -/
def Frame.Alike (frame other : Frame) : Prop := frame.depth = other.depth ∧ frame.width = other.width

instance (frame other : Frame) : Decidable (frame.Alike other) :=
  inferInstanceAs (Decidable (_ ∧ _))

/-- How a sketch came about. -/
inductive Lineage where
  | new (frame : Frame)
  | add (s : Lineage) (data : ByteArray)
  | addCount (s : Lineage) (data : ByteArray) (n : UInt64)
  | clear (s : Lineage)
  | merge (s other : Lineage)

/-- Adds weighted items one after the other. -/
def feed (s : CountMin) (stream : List (ByteArray × UInt64)) : Outcome CountMin :=
  stream.foldlM (fun s added => s.addCount added.1 added.2) s

namespace Lineage

def frame : Lineage → Frame
  | .new frame => frame
  | .add s _ => s.frame
  | .addCount s _ _ => s.frame
  | .clear s => s.frame
  | .merge s _ => s.frame

/-- The weighted items added or merged in since the last clearing. -/
def stream : Lineage → List (ByteArray × UInt64)
  | .new _ => []
  | .add s data => s.stream ++ [(data, 1)]
  | .addCount s data n => s.stream ++ [(data, n)]
  | .clear _ => []
  | .merge s other => if s.frame.Alike other.frame then s.stream ++ other.stream else s.stream

/-- The sketch of a lineage, all of it under one hasher. A merge that is refused leaves the sketch as it
was. -/
def sketch (hasher : Hasher) : Lineage → Outcome CountMin
  | .new frame => .ok (frame.new hasher)
  | .add s data => do (← s.sketch hasher).add data
  | .addCount s data n => do (← s.sketch hasher).addCount data n
  | .clear s => return (← s.sketch hasher).clear
  | .merge s other => do
    let mine ← s.sketch hasher
    let theirs ← other.sketch hasher
    match mine.merge theirs with
    | .ok merged => return merged
    | .error _ => return mine

end Lineage

section Closed
variable {frame other : Frame} {hasher : Hasher}

theorem copies_append (before after : List (ByteArray × UInt64)) :
    copies (before ++ after) = copies before + copies after := by
  simp only [copies, List.map_append, List.sum_append]

/-- The sketch that a stream leaves: a function of the weight of each item. -/
abbrev Frame.closed (frame : Frame) (hasher : Hasher) (stream : List (ByteArray × UInt64)) : CountMin :=
  tallied frame.width frame.depth frame.epsilon frame.delta hasher (copies stream)

theorem Frame.closed_nil (frame : Frame) (hasher : Hasher) : frame.closed hasher [] = frame.new hasher :=
  tallied_zero ..

theorem Frame.depth_closed (stream : List (ByteArray × UInt64)) :
    (frame.closed hasher stream).depth = frame.depth := depth_loaded _ _

theorem Frame.addCount_closed (stream : List (ByteArray × UInt64)) (data : ByteArray) (n : UInt64) :
    (frame.closed hasher stream).addCount data n = .ok (frame.closed hasher (stream ++ [(data, n)])) := by
  rw [Frame.closed, Frame.closed, copies_concat]
  exact addCount_tallied frame.inside data n

theorem Frame.feed_new (stream : List (ByteArray × UInt64)) :
    feed (frame.new hasher) stream = .ok (frame.closed hasher stream) := by
  induction stream using List.reverseRecOn with
  | nil => exact congrArg Except.ok (frame.closed_nil hasher).symm
  | append_singleton before added ih => exact (foldlM_concat_of_ok ih added).trans (addCount_closed ..)

theorem Frame.merge_closed (alike : frame.Alike other) (mine theirs : List (ByteArray × UInt64)) :
    (frame.closed hasher mine).merge (other.closed hasher theirs) =
      .ok (frame.closed hasher (mine ++ theirs)) := by
  obtain ⟨depths, widths⟩ := alike
  simp only [Frame.closed, copies_append, ← depths, ← widths]
  exact merge_tallied _ _

/-- The counters are told by the weights of the items, whatever accuracies the sketch was given. -/
theorem Frame.counters_closed (alike : frame.Alike other) {left right : List (ByteArray × UInt64)}
    (same : copies left = copies right) :
    (frame.closed hasher left).rows = (other.closed hasher right).rows ∧
      (frame.closed hasher left).total = (other.closed hasher right).total := by
  obtain ⟨depths, widths⟩ := alike
  rw [Frame.closed, Frame.closed, same, depths, widths]
  exact ⟨rfl, rfl⟩

theorem Frame.merge_refused (apart : ¬ frame.Alike other) (mine theirs : List (ByteArray × UInt64)) :
    (frame.closed hasher mine).merge (other.closed hasher theirs) = .error
      (if frame.depth ≠ other.depth then .mismatch .depth frame.depth other.depth
        else .mismatch .width frame.width other.width) := by
  rw [CountMin.merge, depth_closed, depth_closed]
  by_cases depths : frame.depth = other.depth
  · have widths : (frame.closed hasher mine).width ≠ (other.closed hasher theirs).width :=
      fun same => apart ⟨depths, same⟩
    rw [if_neg (not_not.mpr depths), if_pos widths, if_neg (not_not.mpr depths)]
    rfl
  · rw [if_pos depths, if_pos depths]

end Closed

theorem Lineage.sketch_eq (hasher : Hasher) (s : Lineage) :
    s.sketch hasher = .ok (s.frame.closed hasher s.stream) := by
  induction s with
  | new frame => exact congrArg Except.ok (frame.closed_nil hasher).symm
  | add s data ih =>
    rw [sketch, ih]
    exact Frame.addCount_closed s.stream data 1
  | addCount s data n ih =>
    rw [sketch, ih]
    exact Frame.addCount_closed s.stream data n
  | clear s ih =>
    rw [sketch, ih]
    exact congrArg Except.ok (clear_tallied.trans (s.frame.closed_nil hasher).symm)
  | merge s other ih ih' =>
    rw [sketch, ih, ih', stream]
    by_cases alike : s.frame.Alike other.frame
    · rw [if_pos alike]
      change (match CountMin.merge _ _ with | .ok merged => _ | .error _ => _) = _
      rw [Frame.merge_closed alike]
      rfl
    · rw [if_neg alike]
      change (match CountMin.merge _ _ with | .ok merged => _ | .error _ => _) = _
      rw [Frame.merge_refused alike]
      rfl

/-- The sketch of every lineage is that of one sketch fed with its stream, and merging feeds the stream of the
other after the own one, however far the counters are saturated on the way. Hence merges may be regrouped, an
empty sketch adds nothing, and the order shows in the accuracies alone. No estimate of the merged sketch is
below the sum of the two. Sketches of other shapes are refused, a wrong depth before a wrong width, and change
nothing. -/
theorem merging_joins_streams (hasher : Hasher) (s : Lineage) :
    ∃ a, s.sketch hasher = .ok a ∧ a.depth = s.frame.depth ∧ a.width = s.frame.width ∧
      feed (s.frame.new hasher) s.stream = .ok a ∧
      ∀ t : Lineage, ∃ b, t.sketch hasher = .ok b ∧
        (s.frame.Alike t.frame → ∃ c, a.merge b = .ok c ∧ (s.merge t).sketch hasher = .ok c ∧
          feed (s.frame.new hasher) (s.stream ++ t.stream) = .ok c ∧
          (∃ d, b.merge a = .ok d ∧ d.rows = c.rows ∧ d.total = c.total) ∧
          (∀ u e, s.frame.Alike u.frame → Lineage.sketch hasher u = .ok e →
            ∃ rest whole, b.merge e = .ok rest ∧ a.merge rest = .ok whole ∧ c.merge e = .ok whole) ∧
          a.merge (t.frame.new hasher) = .ok a ∧
          (∃ d, (t.frame.new hasher).merge a = .ok d ∧ d.rows = a.rows ∧ d.total = a.total) ∧
          ∀ data, ∃ mine theirs both, a.count data = .ok mine ∧ b.count data = .ok theirs ∧
            c.count data = .ok both ∧ min counterMax (mine.toNat + theirs.toNat) ≤ both.toNat) ∧
        (¬ s.frame.Alike t.frame → a.merge b = .error
            (if a.depth ≠ b.depth then .mismatch .depth a.depth b.depth else .mismatch .width a.width b.width) ∧
          (s.merge t).sketch hasher = .ok a) := by
  refine ⟨_, s.sketch_eq hasher, Frame.depth_closed _, rfl, Frame.feed_new _, fun t =>
    ⟨_, t.sketch_eq hasher, fun alike => ?_, fun apart => ?_⟩⟩
  · have back : t.frame.Alike s.frame := ⟨alike.1.symm, alike.2.symm⟩
    have joined : (s.merge t).stream = s.stream ++ t.stream := if_pos alike
    have swapped : copies (t.stream ++ s.stream) = copies (s.stream ++ t.stream) := by
      rw [copies_append, copies_append, add_comm]
    refine ⟨_, Frame.merge_closed alike .., ?_, Frame.feed_new _,
      ⟨_, Frame.merge_closed back .., Frame.counters_closed back swapped⟩, fun u e alike' built => ?_, ?_, ?_,
      fun data => ?_⟩
    · rw [Lineage.sketch_eq, joined]
      rfl
    · rw [Lineage.sketch_eq] at built
      obtain rfl := Except.ok.inj built
      have across : t.frame.Alike u.frame := ⟨back.1.trans alike'.1, back.2.trans alike'.2⟩
      refine ⟨_, _, Frame.merge_closed across .., Frame.merge_closed alike .., ?_⟩
      rw [Frame.merge_closed alike', List.append_assoc]
    · rw [← Frame.closed_nil, Frame.merge_closed alike, List.append_nil]
    · rw [← Frame.closed_nil, Frame.merge_closed back]
      exact ⟨_, rfl, Frame.counters_closed back rfl⟩
    · refine ⟨_, _, _, count_tallied s.frame.inside data, count_tallied t.frame.inside data,
        count_tallied s.frame.inside data, ?_⟩
      have least : estimate hasher s.frame.width s.frame.depth (copies s.stream) data +
          estimate hasher t.frame.width t.frame.depth (copies t.stream) data ≤
            estimate hasher s.frame.width s.frame.depth (copies (s.stream ++ t.stream)) data := by
        rw [← alike.1, ← alike.2, copies_append]
        exact estimate_add_le s.frame.rows _ _ data
      rw [toNat_saturated, toNat_saturated, toNat_saturated]
      omega
  · constructor
    · rw [Frame.merge_refused apart, Frame.depth_closed, Frame.depth_closed]
      rfl
    · rw [Lineage.sketch_eq, Lineage.stream, if_neg apart]
      rfl

/-- Half of the range of a counter, in the first of two. -/
private def half : Lineage := .addCount (.new ⟨2, 1, 0, 0, by decide, by decide⟩) (Hasher.dataOf 0 2) 9223372036854775808

example : ((half.merge half).sketch .leadingBytes).map rows = .ok [#[18446744073709551615, 0]] := by cbv

end Synopsis.Frequency.CountMin
