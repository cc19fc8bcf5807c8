import Synopsis.Randomness.Source

/-! The ChaCha key stream with twelve rounds as a source of words: the words of the blocks
`0, 1, 2, …` in order, under a 64-bit block counter and a zero stream number. -/
namespace Synopsis.Randomness.ChaCha

abbrev State := Vector UInt32 16

def rotate (x : UInt32) (r : UInt32) : UInt32 := (x <<< r) ||| (x >>> (32 - r))

/-- The quarter round on four places of the state. -/
def quarter (s : State) (a b c d : Fin 16) : State :=
  let s := s.set a (s[a] + s[b])
  let s := s.set d (rotate (s[d] ^^^ s[a]) 16)
  let s := s.set c (s[c] + s[d])
  let s := s.set b (rotate (s[b] ^^^ s[c]) 12)
  let s := s.set a (s[a] + s[b])
  let s := s.set d (rotate (s[d] ^^^ s[a]) 8)
  let s := s.set c (s[c] + s[d])
  s.set b (rotate (s[b] ^^^ s[c]) 7)

/-- A round on the columns and one on the diagonals. -/
def doubleRound (s : State) : State :=
  let s := quarter s 0 4 8 12
  let s := quarter s 1 5 9 13
  let s := quarter s 2 6 10 14
  let s := quarter s 3 7 11 15
  let s := quarter s 0 5 10 15
  let s := quarter s 1 6 11 12
  let s := quarter s 2 7 8 13
  quarter s 3 4 9 14

def rounds : (count : Nat) → State → State
  | 0, s => s
  | count + 1, s => rounds count (doubleRound s)

abbrev Key := Vector UInt32 8

/-- The words of one block. -/
def block (key : Key) (counter : UInt64) : State :=
  let start : State := #v[0x61707865, 0x3320646e, 0x79622d32, 0x6b206574,
    key[0], key[1], key[2], key[3], key[4], key[5], key[6], key[7],
    counter.toUInt32, (counter >>> 32).toUInt32, 0, 0]
  Vector.zipWith (· + ·) start (rounds 6 start)

/-- One step of the permuted congruential generator that stretches a seed to a key. -/
def stretch (s : UInt64) : UInt32 × UInt64 :=
  let s := s * 6364136223846793005 + 11634580027462260723
  let word := (((s >>> 18) ^^^ s) >>> 27).toUInt32
  let turn := (s >>> 59).toUInt32
  ((word >>> turn) ||| (word <<< ((32 - turn) % 32)), s)

def keyWords : (count : Nat) → UInt64 → List UInt32
  | 0, _ => []
  | count + 1, s =>
    let (word, s) := stretch s
    word :: keyWords count s

theorem length_keyWords (count : Nat) (s : UInt64) : (keyWords count s).length = count := by
  induction count generalizing s with
  | zero => rfl
  | succ count ih => simp [keyWords, ih]

/-- The key of a seed. -/
def keyOfSeed (seed : UInt64) : Key := ⟨(keyWords 8 seed).toArray, length_keyWords 8 seed⟩

/-- A position in the word stream: the words left of the last block and the number of the next. -/
structure Stream where
  key : Key
  pending : List UInt32
  counter : UInt64

def Stream.ofSeed (seed : UInt64) : Stream := ⟨keyOfSeed seed, [], 0⟩

def Stream.next (s : Stream) : UInt32 × Stream :=
  match s.pending with
  | word :: rest => (word, { s with pending := rest })
  | [] =>
    let words := block s.key s.counter
    (words[0], { s with pending := words.toList.tail, counter := s.counter + 1 })

instance : Source Stream := ⟨Stream.next⟩

end Synopsis.Randomness.ChaCha
