/-! Draws from a source of 32-bit words. Each draw takes its words in order and returns what is
left of the source. -/
namespace Synopsis.Randomness

/-- A state from which words can be taken without end. -/
class Source (σ : Type) where
  next : σ → UInt32 × σ

variable {σ : Type} [Source σ]

/-- A fair coin: the highest bit of a double word decides, and true is the lower half. -/
def coin (s : σ) : Bool × σ :=
  let (_, s) := Source.next s
  let (high, s) := Source.next s
  (high < 0x80000000, s)

/-- The next word, as a number. -/
def nextWord (s : σ) : Nat × σ :=
  let (word, s) := Source.next s
  (word.toNat, s)

/-- The next two words as one number, the low half drawn first. -/
def nextDoubleWord (s : σ) : Nat × σ :=
  let (low, s) := nextWord s
  let (high, s) := nextWord s
  (UInt32.size * high + low, s)

/-- A number below `n`, for `0 < n < size`, as the high half of the product with a number below `size`.
Where the low half is large a second number decides the carry into the high half. -/
def scaled (size : Nat) (draw : σ → Nat × σ) (n : Nat) (s : σ) : Nat × σ :=
  let (x, s) := draw s
  let high := x * n / size
  let low := x * n % size
  if low ≤ size - n then (high, s)
  else
    let (x, s) := draw s
    (high + (low + x * n / size) / size, s)

/-- A number below `n`, for `0 < n < 2 ^ 64`. From `2 ^ 32` on double words are drawn. -/
def below (n : Nat) (s : σ) : Nat × σ :=
  if n < UInt32.size then scaled UInt32.size nextWord n s else scaled UInt64.size nextDoubleWord n s

theorem nextWord_lt (s : σ) : (nextWord s).1 < UInt32.size := (Source.next s).1.toNat_lt_size

theorem nextDoubleWord_lt (s : σ) : (nextDoubleWord s).1 < UInt64.size := by
  have low := nextWord_lt s
  have high := nextWord_lt (nextWord s).2
  simp only [nextDoubleWord, UInt32.size, UInt64.size] at *
  omega

omit [Source σ] in
/-- The carry of a second draw, too, stays below the bound. -/
theorem scaled_lt {size n : Nat} {draw : σ → Nat × σ} (bound : ∀ s, (draw s).1 < size) (hn : 0 < n) (s : σ) :
    (scaled size draw n s).1 < n := by
  have pos : 0 < size := Nat.zero_lt_of_lt (bound s)
  have high {x : Nat} (hx : x < size) : x * n / size < n :=
    Nat.div_lt_of_lt_mul (Nat.mul_lt_mul_of_pos_right hx hn)
  have carried {x y : Nat} (hx : x < size) (hy : y < n) : x * n / size + (x * n % size + y) / size < n := by
    have total : x * n + y < size * n := calc
      x * n + y < x * n + n := Nat.add_lt_add_left hy _
      _ = (x + 1) * n := (Nat.succ_mul x n).symm
      _ ≤ size * n := Nat.mul_le_mul_right n hx
    have joined : x * n / size + (x * n % size + y) / size = (x * n + y) / size := by
      rw [Nat.add_comm, ← Nat.add_mul_div_left _ _ pos, Nat.add_right_comm, Nat.mod_add_div]
    rw [joined]
    exact Nat.div_lt_of_lt_mul total
  dsimp only [scaled]
  split
  · exact high (bound s)
  · exact carried (bound s) (high (bound _))

/-- Every draw is below its bound, whatever the words are. -/
theorem below_lt {n : Nat} (hn : 0 < n) (s : σ) : (below n s).1 < n := by
  rw [below]
  split
  · exact scaled_lt nextWord_lt hn s
  · exact scaled_lt nextDoubleWord_lt hn s

/-- The words of a list, and then zeros. -/
instance : Source (List UInt32) := ⟨fun words => (words.headD 0, words.tail)⟩

/-- The least number whose product with `n` has the high half `v`. -/
def leastFor (size n v : Nat) : Nat := (v * size + (n - 1)) / n

section Reach
variable {size n v : Nat} (hv : v < n) (small : n < size)
include hv small

theorem leastFor_lt : leastFor size n v < size := by
  have next : (v + 1) * size ≤ n * size := Nat.mul_le_mul_right size hv
  rw [Nat.succ_mul] at next
  exact Nat.div_lt_of_lt_mul (by omega)

theorem leastFor_mul_div : leastFor size n v * n / size = v := by
  have pos : 0 < n := Nat.zero_lt_of_lt hv
  have parts := Nat.div_add_mod (v * size + (n - 1)) n
  have rest := Nat.mod_lt (v * size + (n - 1)) pos
  rw [Nat.mul_comm n] at parts
  apply Nat.div_eq_of_lt_le
  · rw [leastFor]
    omega
  · rw [leastFor, Nat.succ_mul]
    omega

omit [Source σ] in
/-- A second number that is zero carries nothing. -/
theorem scaled_leastFor {draw : σ → Nat × σ} {s : σ} (first : (draw s).1 = leastFor size n v)
    (second : (draw (draw s).2).1 = 0) : (scaled size draw n s).1 = v := by
  have high := leastFor_mul_div hv small
  have low : leastFor size n v * n % size < size := Nat.mod_lt _ (Nat.zero_lt_of_lt small)
  simp only [scaled, first, second]
  split
  · exact high
  · simp only [Nat.zero_mul, Nat.zero_div, Nat.add_zero, Nat.div_eq_of_lt low, high]

end Reach

/-- Every number below the bound is drawn from some words. -/
theorem exists_below {n v : Nat} (word : n < UInt64.size) (hv : v < n) :
    ∃ words : List UInt32, (below n words).1 = v := by
  have toNat (x : Nat) : x.toUInt32.toNat = x % UInt32.size := UInt32.toNat_ofNat'
  by_cases small : n < UInt32.size
  · let x := leastFor UInt32.size n v
    refine ⟨[x.toUInt32], ?_⟩
    rw [below, if_pos small]
    apply scaled_leastFor hv small
    · change x.toUInt32.toNat = x
      rw [toNat, Nat.mod_eq_of_lt (leastFor_lt hv small)]
    · rfl
  · let x := leastFor UInt64.size n v
    have bound : x < UInt32.size * UInt32.size := leastFor_lt hv word
    refine ⟨[x.toUInt32, (x / UInt32.size).toUInt32], ?_⟩
    rw [below, if_neg small]
    apply scaled_leastFor hv word
    · change UInt32.size * (x / UInt32.size).toUInt32.toNat + x.toUInt32.toNat = x
      rw [toNat, toNat, Nat.mod_eq_of_lt (Nat.div_lt_of_lt_mul bound), Nat.div_add_mod]
    · rfl

end Synopsis.Randomness
