import Synopsis.Encoding.Varint
import Mathlib

/-! Readers and what they undo. A reader is matched with an encoding where it takes exactly these bytes
from the front of any others, and where it asks for more bytes whenever they are cut short. -/
namespace Synopsis.Encoding
open Numeric

/-- The reader gives `a` for exactly these bytes, and for no part of them. -/
structure Reads {α : Type} (r : Reader α) (bytes : List UInt8) (a : α) : Prop where
  whole : ∀ rest, r (bytes ++ rest) = .ok (a, rest)
  short : ∀ cut, cut <+: bytes → cut ≠ bytes → r cut = .error .unexpectedEnd

namespace Reads
variable {α β : Type} {r : Reader α} {a : α} {xs ys : List UInt8}

protected theorem pure (a : α) : Reads (pure a) [] a :=
  ⟨fun _ => rfl, fun _ part short => absurd (List.prefix_nil.mp part) short⟩

theorem byte (b : UInt8) : Reads Reader.byte [b] b := by
  refine ⟨fun _ => rfl, fun cut part short => ?_⟩
  rcases List.prefix_cons_iff.mp part with rfl | ⟨rest, rfl, nothing⟩
  · rfl
  · exact absurd (by rw [List.prefix_nil.mp nothing]) short

/-- A cut falls into the first encoding, or leaves it whole and falls into the second. -/
protected theorem bind {f : α → Reader β} {b : β} (first : Reads r xs a) (second : Reads (f a) ys b) :
    Reads (r >>= f) (xs ++ ys) b := by
  have after (rest : List UInt8) : (r >>= f) (xs ++ rest) = f a rest := by
    simp only [Bind.bind, first.whole]
  refine ⟨fun rest => ?_, fun cut part short => ?_⟩
  · rw [List.append_assoc, after, second.whole]
  · rcases List.prefix_or_prefix_of_prefix part (List.prefix_append xs ys) with inside | ⟨tail, rfl⟩
    · by_cases all : cut = xs
      · subst all
        have emptied := after []
        rw [List.append_nil] at emptied
        rw [emptied]
        exact second.short [] List.nil_prefix fun none => short (by rw [← none, List.append_nil])
      · simp only [Bind.bind, first.short cut inside all]
    · rw [after]
      exact second.short tail ((List.prefix_append_right_inj xs).mp part)
        fun same => short (by rw [same])

/-- What is decided at the end takes no more bytes. -/
theorem last {f : α → Reader β} {b : β} (first : Reads r xs a) (final : Reads (f a) [] b) :
    Reads (r >>= f) xs b := by
  have done := first.bind final
  rwa [List.append_nil] at done

theorem map {f : α → β} (h : Reads r xs a) : Reads (do return f (← r)) xs (f a) :=
  h.last (Reads.pure (f a))

theorem replicate {f : α → List UInt8} {values : List α} (each : ∀ a ∈ values, Reads r (f a) a) :
    Reads (r.replicate values.length) (values.flatMap f) values := by
  induction values with
  | nil => exact Reads.pure []
  | cons a values ih =>
    obtain ⟨first, others⟩ := List.forall_mem_cons.mp each
    exact first.bind (ih others).map

theorem bytes (bytes : List UInt8) : Reads (Reader.byte.replicate bytes.length) bytes bytes := by
  have each : Reads (Reader.byte.replicate bytes.length) (bytes.flatMap ([·])) bytes :=
    replicate fun b _ => byte b
  rwa [List.flatMap_singleton'] at each

theorem word {width n : Nat} (fits : n < 1 <<< (8 * width)) :
    Reads (Reader.word width) (LittleEndian.toBytes width n) n := by
  have read := (bytes (LittleEndian.toBytes width n)).map (f := LittleEndian.ofBytes)
  rw [LittleEndian.length_toBytes, LittleEndian.ofBytes_toBytes, Nat.mod_eq_of_lt fits] at read
  exact read

end Reads

namespace Varint

/-- The marks announce the widths that follow them. -/
theorem reads_marked {mark : UInt8} {width n : Nat} (wide : ¬ mark < 251)
    (known : widths.lookup mark = some width) (fits : n < 1 <<< (8 * width)) :
    Reads read (mark :: LittleEndian.toBytes width n) n := by
  change Reads read ([mark] ++ LittleEndian.toBytes width n) n
  refine (Reads.byte mark).bind ?_
  rw [if_neg wide]
  simp only [known]
  exact Reads.word fits

theorem reads_encode {n : Nat} (fits : n < UInt64.size) : Reads read (encode n) n := by
  unfold encode
  split
  next small =>
    refine (Reads.byte n.toUInt8).last ?_
    have same : n.toUInt8.toNat = n := Nat.mod_eq_of_lt (by omega)
    have low : n.toUInt8 < 251 := UInt8.lt_iff_toNat_lt.mpr (same.symm ▸ small)
    rw [if_pos low, same]
    exact Reads.pure n
  split
  next => exact reads_marked (by decide) rfl (by assumption)
  split
  next => exact reads_marked (by decide) rfl (by assumption)
  next => exact reads_marked (by decide) rfl fits

theorem reads_encodeList {α : Type} {r : Reader α} {f : α → List UInt8} {values : List α}
    (fits : values.length < UInt64.size) (each : ∀ a ∈ values, Reads r (f a) a) :
    Reads (readList r) (encodeList f values) values :=
  (reads_encode fits).bind (Reads.replicate each)

end Varint
end Synopsis.Encoding
