import Synopsis.Proofs.Encoding.Reads

/-! The forms of numbers in accepted bytes. A number may be written in more bytes than it needs, so that different
bytes are read as one value; the encoding of the value is the one in which all forms are shortest. -/
namespace Synopsis.Encoding
open Numeric

theorem Reader.bind_eq_ok {α β : Type} {r : Reader α} {f : α → Reader β} {bytes rest : List UInt8} {b : β} :
    (r >>= f) bytes = .ok (b, rest) ↔ ∃ a after, r bytes = .ok (a, after) ∧ f a after = .ok (b, rest) := by
  cases run : r bytes with
  | error fault => simp [Bind.bind, run]
  | ok result =>
    obtain ⟨a, after⟩ := result
    simp [Bind.bind, run]

/-- Reads a value together with the bytes that it takes. -/
def Reader.traced {α : Type} (r : Reader α) : Reader (α × List UInt8) := fun bytes =>
  match r bytes with
  | .ok (a, rest) => .ok ((a, bytes.take (bytes.length - rest.length)), rest)
  | .error fault => .error fault

/-- Where the first reader accepts bytes, the second takes the same ones, and these bytes go with what both read. -/
def Mirrors {α β : Type} (r : Reader α) (q : Reader β) (Rel : List UInt8 → α → β → Prop) : Prop :=
  ∀ bytes a rest, r bytes = .ok (a, rest) →
    ∃ used b, bytes = used ++ rest ∧ q bytes = .ok (b, rest) ∧ Rel used a b

namespace Mirrors
variable {α β γ δ : Type} {r : Reader α} {q : Reader β} {Rel : List UInt8 → α → β → Prop}

protected theorem pure {a : α} {b : β} (related : Rel [] a b) : Mirrors (pure a) (pure b) Rel := by
  intro bytes _ rest run
  cases run
  exact ⟨[], b, rfl, rfl, related⟩

protected theorem bind {f : α → Reader γ} {g : β → Reader δ} {Whole : List UInt8 → γ → δ → Prop}
    (first : Mirrors r q Rel)
    (next : ∀ used a b, Rel used a b → Mirrors (f a) (g b) fun more c d => Whole (used ++ more) c d) :
    Mirrors (r >>= f) (q >>= g) Whole := by
  intro bytes c rest run
  obtain ⟨a, after, front, back⟩ := Reader.bind_eq_ok.mp run
  obtain ⟨used, b, rfl, taken, related⟩ := first _ _ _ front
  obtain ⟨more, d, rfl, others, whole⟩ := next used a b related _ _ _ back
  exact ⟨used ++ more, d, (List.append_assoc ..).symm, Reader.bind_eq_ok.mpr ⟨b, _, taken, others⟩, whole⟩

theorem imp {Weaker : List UInt8 → α → β → Prop} (h : Mirrors r q Rel)
    (weaker : ∀ used a b, Rel used a b → Weaker used a b) : Mirrors r q Weaker := by
  intro bytes a rest run
  obtain ⟨used, b, whole, taken, related⟩ := h bytes a rest run
  exact ⟨used, b, whole, taken, weaker used a b related⟩

/-- The second reader may make more of what it has read. -/
theorem map_right {g : β → δ} {Whole : List UInt8 → α → δ → Prop} (h : Mirrors r q Rel)
    (whole : ∀ used a b, Rel used a b → Whole used a (g b)) : Mirrors r (do return g (← q)) Whole := by
  intro bytes a rest run
  obtain ⟨used, b, split, taken, related⟩ := h bytes a rest run
  exact ⟨used, g b, split, Reader.bind_eq_ok.mpr ⟨b, rest, taken, rfl⟩, whole used a b related⟩

theorem map {f : α → γ} {g : β → δ} {Whole : List UInt8 → γ → δ → Prop} (h : Mirrors r q Rel)
    (whole : ∀ used a b, Rel used a b → Whole used (f a) (g b)) :
    Mirrors (do return f (← r)) (do return g (← q)) Whole := by
  refine h.bind fun used a b related => .pure ?_
  rw [List.append_nil]
  exact whole used a b related

theorem byte : Mirrors Reader.byte Reader.byte fun used a b => used = [a] ∧ b = a := by
  intro bytes a rest run
  cases bytes with
  | nil => cases run
  | cons front others =>
    cases run
    exact ⟨[a], a, rfl, rfl, rfl, rfl⟩

theorem traced (h : Mirrors r q Rel) :
    Mirrors r r.traced fun used a number => number = (a, used) ∧ ∃ b, Rel used a b := by
  intro bytes a rest run
  obtain ⟨used, b, rfl, -, related⟩ := h _ _ _ run
  refine ⟨used, (a, used), rfl, ?_, rfl, b, related⟩
  simp only [Reader.traced, run, List.length_append, Nat.add_sub_cancel, List.take_left]

/-- What holds of each value and of its own bytes holds of all of them in turn. -/
theorem replicate {Each : List UInt8 → List α → List β → Prop} (h : Mirrors r q Rel) (none : Each [] [] [])
    (one : ∀ used a b more as bs, Rel used a b → Each more as bs → Each (used ++ more) (a :: as) (b :: bs))
    (n : Nat) : Mirrors (r.replicate n) (q.replicate n) fun used as bs => as.length = n ∧ Each used as bs := by
  induction n with
  | zero => exact .pure ⟨rfl, none⟩
  | succ n ih =>
    refine h.bind fun used a b related => ih.map ?_
    rintro more as bs ⟨length, each⟩
    exact ⟨congrArg (· + 1) length, one used a b more as bs related each⟩

theorem bytes (n : Nat) : Mirrors (Reader.byte.replicate n) (Reader.byte.replicate n) fun used as bs =>
    as.length = n ∧ used = as ∧ bs = as := by
  refine byte.replicate ⟨rfl, rfl⟩ ?_ n
  rintro _ a _ _ as _ ⟨rfl, rfl⟩ ⟨rfl, rfl⟩
  exact ⟨rfl, rfl⟩

theorem word (width : Nat) : Mirrors (Reader.word width) (Reader.word width) fun used n m =>
    used.length = width ∧ LittleEndian.ofBytes used = n ∧ m = n := by
  refine (bytes width).map ?_
  rintro _ as _ ⟨length, rfl, rfl⟩
  exact ⟨length, rfl, rfl⟩

end Mirrors

/-- The low bytes of a number that was read are the bytes that it was read from. -/
theorem toBytes_ofBytes (bytes : List UInt8) :
    LittleEndian.toBytes bytes.length (LittleEndian.ofBytes bytes) = bytes := by
  induction bytes with
  | nil => rfl
  | cons b rest ih =>
    have low : (b.toNat + 256 * LittleEndian.ofBytes rest).toUInt8 = b := by
      apply UInt8.toNat_inj.mp
      have small := b.toNat_lt
      simp only [Nat.toUInt8_eq, UInt8.toNat_ofNat']
      omega
    have high : (b.toNat + 256 * LittleEndian.ofBytes rest) / 256 = LittleEndian.ofBytes rest := by
      have small := b.toNat_lt
      omega
    rw [LittleEndian.ofBytes, List.length_cons, LittleEndian.toBytes, low, high, ih]

namespace Varint

/-- The bytes that are read as a number: one small byte, or a mark and as many bytes as it announces. -/
inductive Form : Nat → List UInt8 → Prop
  | small {b : UInt8} (low : b < 251) : Form b.toNat [b]
  | wide {mark : UInt8} {bytes : List UInt8} (high : ¬ mark < 251) (known : widths.lookup mark = some bytes.length) :
      Form (LittleEndian.ofBytes bytes) (mark :: bytes)

theorem mirrors_read : Mirrors read read.traced fun used n number => number = (n, used) ∧ Form n used := by
  have forms : Mirrors read read fun used n m => Form n used ∧ m = n := by
    refine Mirrors.byte.bind ?_
    rintro _ _ mark ⟨rfl, rfl⟩
    by_cases low : mark < 251
    · rw [if_pos low]
      exact .pure ⟨.small low, rfl⟩
    · rw [if_neg low]
      cases known : widths.lookup mark with
      | none =>
        intro _ _ _ run
        cases run
      | some width =>
        refine (Mirrors.word width).imp ?_
        rintro used _ _ ⟨length, rfl, rfl⟩
        exact ⟨.wide low (length.symm ▸ known), rfl⟩
  exact forms.traced.imp fun used n number ⟨same, _, form, _⟩ => ⟨same, form⟩

theorem lookup_widths {mark : UInt8} {width : Nat} (known : widths.lookup mark = some width) :
    (mark = 251 ∧ width = 2) ∨ (mark = 252 ∧ width = 4) ∨ (mark = 253 ∧ width = 8) := by
  have listed : (mark, width) ∈ widths := by
    obtain ⟨before, after, same, -⟩ := List.lookup_eq_some_iff.mp known
    simp [same]
  simpa [widths] using listed

theorem length_encode (n : Nat) : (encode n).length =
    if n < 251 then 1 else if n < UInt16.size then 3 else if n < UInt32.size then 5 else 9 := by
  unfold encode
  split
  · rfl
  split
  · rfl
  split <;> rfl

theorem Form.lt {n : Nat} {form : List UInt8} (h : Form n form) : n < UInt64.size := by
  cases h with
  | @small b low => exact b.toNat_lt.trans (by decide)
  | @wide mark bytes _ known =>
    have bound := LittleEndian.ofBytes_lt bytes
    rcases lookup_widths known with ⟨-, length⟩ | ⟨-, length⟩ | ⟨-, length⟩
    · rw [length] at bound
      exact bound.trans (by decide)
    · rw [length] at bound
      exact bound.trans (by decide)
    · rw [length] at bound
      exact bound

theorem Form.reads {n : Nat} {form : List UInt8} (h : Form n form) : Reads read form n := by
  cases h with
  | @small b low =>
    refine (Reads.byte b).last ?_
    rw [if_pos low]
    exact Reads.pure _
  | @wide mark bytes high known =>
    have reads := reads_marked high known (LittleEndian.ofBytes_lt bytes)
    rwa [toBytes_ofBytes] at reads

theorem read_eq_ok_iff {n : Nat} {form : List UInt8} : read form = .ok (n, []) ↔ Form n form := by
  constructor
  · intro run
    obtain ⟨used, _, rfl, -, -, form⟩ := mirrors_read _ _ _ run
    rwa [List.append_nil]
  · intro h
    have run := h.reads.whole []
    rwa [List.append_nil] at run

theorem form_encode {n : Nat} (fits : n < UInt64.size) : Form n (encode n) := by
  have run := (reads_encode fits).whole []
  rw [List.append_nil] at run
  exact read_eq_ok_iff.mp run

/-- The encoding is shorter than every other form. -/
theorem Form.encode_eq_or_lt {n : Nat} {form : List UInt8} (h : Form n form) :
    encode n = form ∨ (encode n).length < form.length := by
  cases h with
  | @small b low =>
    have below : b.toNat < 251 := UInt8.lt_iff_toNat_lt.mp low
    left
    rw [encode, if_pos below, Nat.toUInt8_eq, UInt8.ofNat_toNat]
  | @wide mark bytes _ known =>
    have bound := LittleEndian.ofBytes_lt bytes
    have back := toBytes_ofBytes bytes
    generalize LittleEndian.ofBytes bytes = n at bound back
    -- a width that is not the first in which the number fits wastes bytes
    rcases lookup_widths known with ⟨rfl, length⟩ | ⟨rfl, length⟩ | ⟨rfl, length⟩
    · rw [length] at bound back
      by_cases small : n < 251
      · right
        rw [length_encode, if_pos small, List.length_cons, length]
        decide
      · left
        have fits : n < UInt16.size := bound
        rw [encode, if_neg small, if_pos fits, back]
    · rw [length] at bound back
      by_cases short : n < UInt16.size
      · right
        rw [length_encode, if_pos short, List.length_cons, length]
        split <;> decide
      · left
        have large : ¬ n < 251 := fun small => short (small.trans (by decide))
        have fits : n < UInt32.size := bound
        rw [encode, if_neg large, if_neg short, if_pos fits, back]
    · rw [length] at back
      by_cases short : n < UInt32.size
      · right
        rw [length_encode, if_pos short, List.length_cons, length]
        split
        · decide
        split <;> decide
      · left
        have large : ¬ n < 251 := fun small => short (small.trans (by decide))
        have larger : ¬ n < UInt16.size := fun small => short (small.trans (by decide))
        rw [encode, if_neg large, if_neg larger, if_neg short, back]

/-- No other form of the same number is shorter. -/
def Shortest (form : List UInt8) : Prop :=
  ∀ n other, read form = .ok (n, []) → read other = .ok (n, []) → form.length ≤ other.length

theorem Form.shortest_iff {n : Nat} {form : List UInt8} (h : Form n form) : Shortest form ↔ encode n = form := by
  have run := read_eq_ok_iff.mpr h
  constructor
  · intro shortest
    have least := shortest n (encode n) run (read_eq_ok_iff.mpr (form_encode h.lt))
    exact h.encode_eq_or_lt.resolve_right least.not_gt
  · intro same m other this that
    cases run.symm.trans this
    rcases (read_eq_ok_iff.mp that).encode_eq_or_lt with equal | less
    · rw [← same, equal]
    · rw [← same]
      exact less.le

end Varint

/-- Bytes beside the encoding of what is read from them, which is no longer, and the same just if all forms of numbers
in the bytes are shortest. -/
structure Spelled (used : List UInt8) (forms : List (List UInt8)) (shortest : List UInt8) : Prop where
  numbers : ∀ form ∈ forms, ∃ n, Varint.read form = .ok (n, [])
  length : shortest.length ≤ used.length
  same : shortest = used ↔ ∀ form ∈ forms, Varint.Shortest form

namespace Spelled
variable {used more shortest other : List UInt8} {forms others : List (List UInt8)}

/-- Bytes without numbers are written in one way only. -/
theorem plain (bytes : List UInt8) : Spelled bytes [] bytes :=
  ⟨List.forall_mem_nil _, le_rfl, fun _ => List.forall_mem_nil _, fun _ => rfl⟩

theorem number {n : Nat} (h : Varint.Form n used) : Spelled used [used] (Varint.encode n) := by
  refine ⟨List.forall_mem_singleton.mpr ⟨n, Varint.read_eq_ok_iff.mpr h⟩, ?_, ?_⟩
  · rcases h.encode_eq_or_lt with same | less
    · rw [same]
    · exact less.le
  · rw [List.forall_mem_singleton, h.shortest_iff]

/-- Neither part is shorter than its encoding, so the whole is not the encoding unless both parts are. -/
theorem append (h : Spelled used forms shortest) (k : Spelled more others other) :
    Spelled (used ++ more) (forms ++ others) (shortest ++ other) := by
  have first := h.length
  have second := k.length
  refine ⟨List.forall_mem_append.mpr ⟨h.numbers, k.numbers⟩, ?_, ?_⟩
  · simp only [List.length_append]
    omega
  · rw [List.forall_mem_append, ← h.same, ← k.same]
    constructor
    · intro same
      have total := congrArg List.length same
      simp only [List.length_append] at total
      exact List.append_inj same (by omega)
    · rintro ⟨rfl, rfl⟩
      rfl

end Spelled

namespace Varint

/-- The forms of the numbers in a list: that of its length, and those in its values. -/
def formsOfList (r : Reader (List (List UInt8))) : Reader (List (List UInt8)) := do
  let (n, form) ← read.traced
  return form :: (← r.replicate n).flatten

theorem mirrors_readList {α : Type} {r : Reader α} {q : Reader (List (List UInt8))} {f : α → List UInt8} {P : α → Prop}
    (each : Mirrors r q fun used a forms => P a ∧ Spelled used forms (f a)) :
    Mirrors (readList r) (formsOfList q) fun used values forms =>
      (values.length < UInt64.size ∧ ∀ a ∈ values, P a) ∧ Spelled used forms (encodeList f values) := by
  have all (n : Nat) : Mirrors (r.replicate n) (q.replicate n) fun used values forms =>
      values.length = n ∧ (∀ a ∈ values, P a) ∧ Spelled used forms.flatten (values.flatMap f) := by
    refine each.replicate ⟨List.forall_mem_nil _, .plain []⟩ ?_ n
    rintro used a forms more values others ⟨good, spelled⟩ ⟨rest, spelled'⟩
    exact ⟨List.forall_mem_cons.mpr ⟨good, rest⟩, spelled.append spelled'⟩
  refine mirrors_read.bind ?_
  rintro used n _ ⟨rfl, form⟩
  refine (all n).map_right ?_
  rintro more values forms ⟨rfl, good, spelled⟩
  exact ⟨⟨form.lt, good⟩, (Spelled.number form).append spelled⟩

end Varint
end Synopsis.Encoding
