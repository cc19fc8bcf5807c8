import Synopsis.Failure
import Synopsis.Numeric.LittleEndian

/-! Readers that take a value from the front of a byte sequence and leave the rest. -/
namespace Synopsis.Encoding

/-- A reader of `α`: the value with the bytes after it, or why there is none. -/
def Reader (α : Type) := List UInt8 → Except EncodingFault (α × List UInt8)

namespace Reader

instance : Monad Reader where
  pure a := fun bytes => .ok (a, bytes)
  bind r f := fun bytes =>
    match r bytes with
    | .ok (a, rest) => f a rest
    | .error e => .error e

def fail {α : Type} (fault : EncodingFault) : Reader α := fun _ => .error fault

def byte : Reader UInt8
  | [] => .error .unexpectedEnd
  | b :: rest => .ok (b, rest)

/-- Reads `n` values one after the other. -/
def replicate {α : Type} (r : Reader α) : (n : Nat) → Reader (List α)
  | 0 => pure []
  | n + 1 => do
    let a ← r
    return a :: (← replicate r n)

/-- Reads a number of `width` bytes, the lowest first. -/
def word (width : Nat) : Reader Nat := do
  return Numeric.LittleEndian.ofBytes (← replicate byte width)

end Reader
end Synopsis.Encoding
