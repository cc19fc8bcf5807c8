/-! The 64-bit FNV-1a hash: each byte is added before the multiplication. -/
namespace Synopsis.Hashing.Fnv

def offsetBasis : UInt64 := 0xcbf29ce484222325
def prime : UInt64 := 0x100000001b3

def hash64 (data : ByteArray) : UInt64 :=
  data.foldl (fun h b => (h ^^^ b.toUInt64) * prime) offsetBasis

end Synopsis.Hashing.Fnv
