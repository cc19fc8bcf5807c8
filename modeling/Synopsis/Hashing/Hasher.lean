import Synopsis.Hashing.Murmur
import Synopsis.Hashing.Fnv

/-! Named hash functions. The name identifies the function wherever a structure is stored,
so hashers are compared by name alone. -/
namespace Synopsis.Hashing

/-- A named function from byte data to 128-bit digests. -/
structure Hasher where
  name : String
  digest : ByteArray → Digest

namespace Hasher

instance : BEq Hasher := ⟨fun a b => a.name == b.name⟩

/-- The default hasher. -/
def murmur : Hasher := ⟨"murmur3-128", Murmur.hash128⟩

/-- Low word: the 32-bit Murmur hash, then the low half of the FNV hash. High word: the FNV hash. -/
def murmurFnv : Hasher where
  name := "murmur-fnv"
  digest data :=
    let fnv := Fnv.hash64 data
    ⟨(Murmur.hash32 data).toUInt64 ||| (fnv <<< 32), fnv⟩

/-- The hashers that a stored name can refer to. -/
def builtIn : List Hasher := [murmur, murmurFnv]

def ofName? (name : String) : Option Hasher := builtIn.find? (·.name == name)

instance : Inhabited Hasher := ⟨murmur⟩

/-- The first four digest bytes. -/
def word (h : Hasher) (data : ByteArray) : UInt32 := (h.digest data).word

theorem ofName?_name {h : Hasher} (known : h ∈ builtIn) : ofName? h.name = some h := by
  simp only [builtIn, List.mem_cons, List.not_mem_nil, or_false] at known
  rcases known with rfl | rfl
  · rfl
  · rfl

def render (h : Hasher) : String := "HashAlgorithm(" ++ h.name ++ ")"

end Hasher
end Synopsis.Hashing
