import Synopsis.Failure
import Synopsis.Hashing.Hasher

/-! Double hashing: one digest yields the arithmetic sequence `start + stride · i` of hashes. -/
namespace Synopsis.Hashing

/-- An arithmetic sequence of 64-bit words. -/
structure Probe where
  start : UInt64
  stride : UInt64
  deriving DecidableEq, Repr

namespace Probe

/-- Reads the first eight digest bytes as two 32-bit words. -/
def narrow (d : Digest) : Probe := ⟨d.low &&& 0xffffffff, d.low >>> 32⟩

/-- Reads the sixteen digest bytes as two 64-bit words. -/
def wide (d : Digest) : Probe := ⟨d.low, d.high⟩

/-- The `i`-th hash, in wrapping arithmetic. -/
def hash (p : Probe) (i : Nat) : UInt64 := p.start + p.stride * i.toUInt64

/-- The `i`-th hash reduced to a position below `modulus`. -/
def index (p : Probe) (i modulus : Nat) : Nat := (p.hash i).toNat % modulus

/-- The same, failing where there are no positions. -/
def index? (p : Probe) (i modulus : Nat) : Outcome Nat :=
  if modulus = 0 then .error .zeroModulus else .ok (p.index i modulus)

/-- The positions of the first `k` hashes, in order. -/
def positions (p : Probe) (k modulus : Nat) : List Nat :=
  (List.range k).map fun i => p.index i modulus

/-- The same, failing at the first hash that has no position. -/
def positions? (p : Probe) (k modulus : Nat) : Outcome (List Nat) :=
  (List.range k).mapM fun i => p.index? i modulus

theorem index_lt (p : Probe) (i : Nat) {modulus : Nat} (h : 0 < modulus) :
    p.index i modulus < modulus := Nat.mod_lt _ h

@[simp] theorem length_positions (p : Probe) (k modulus : Nat) :
    (p.positions k modulus).length = k := by simp [positions]

end Probe

/-- The positions of `data` among `modulus` cells, from the 32-bit words of its digest. -/
def Hasher.positions (h : Hasher) (data : ByteArray) (k modulus : Nat) : List Nat :=
  (Probe.narrow (h.digest data)).positions k modulus

theorem Hasher.positions_lt (h : Hasher) (data : ByteArray) (k : Nat) {modulus : Nat} (pos : 0 < modulus) :
    ∀ i ∈ h.positions data k modulus, i < modulus := by
  intro i member
  obtain ⟨n, -, rfl⟩ := List.mem_map.mp member
  exact Probe.index_lt _ _ pos

end Synopsis.Hashing
