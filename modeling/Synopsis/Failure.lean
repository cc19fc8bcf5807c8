import Synopsis.Numeric.ShortestDecimal

/-! The causes for which an operation can fail, and their texts. -/
namespace Synopsis
open Numeric.ShortestDecimal (render)

/-- What a configuration can have wrong. -/
inductive ConfigFault
  | capacity
  | falsePositiveRate (x : Float)
  /-- A width that a filter does not accept. -/
  | counterBits (bits : Nat)
  /-- A width that an array of counters does not accept. -/
  | counterWidth (bits : Nat)
  | addressSpace (count bits : Nat)
  | regions
  | regionsExceed (count total : Nat)
  | cells
  | tighteningRatio (x : Float)
  | fillRatio (x : Float)
  | kicks
  | epsilon (x : Float)
  | delta (x : Float)
  | trackedItems
  | hashFunctions
  | errorRate (x : Float)
  | errorRateTooSmall (x : Float)

def ConfigFault.message : ConfigFault → String
  | .capacity => "Capacity must be > 0"
  | .falsePositiveRate x => "FPR must be between 0 and 1, got " ++ render x
  | .counterBits bits => "Bucket bits must be between 1 and 8, got " ++ bits.repr
  | .counterWidth bits => "Bucket size must be between 1 and 8 bits, got " ++ bits.repr
  | .addressSpace count bits =>
    count.repr ++ " buckets of " ++ bits.repr ++ " bits overflow the address space"
  | .regions => "Regions must be > 0"
  | .regionsExceed count total =>
    "Regions (" ++ count.repr ++ ") must be fewer than the filter size (" ++ total.repr ++ ")"
  | .cells => "Cells must be > 0"
  | .tighteningRatio x => "Tightening ratio must be between 0 and 1, got " ++ render x
  | .fillRatio x => "Fill ratio must be in (0, 1], got " ++ render x
  | .kicks => "Max kicks must be > 0"
  | .epsilon x => "Epsilon must be between 0 and 1, got " ++ render x
  | .delta x => "Delta must be between 0 and 1, got " ++ render x
  | .trackedItems => "K must be > 0"
  | .hashFunctions => "Number of hash functions must be > 0"
  | .errorRate x => "Error rate must be between 0 and 1, got " ++ render x
  | .errorRateTooSmall x => "Error rate " ++ render x ++ " needs more than 2^32 registers"

/-- The measures in which two sketches must agree. -/
inductive Dimension
  | depth
  | width
  | registers
  deriving DecidableEq

def Dimension.text : Dimension → String
  | .depth => "matrix depth"
  | .width => "matrix width"
  | .registers => "register count"

/-- Why bytes are not the encoding of a value. -/
inductive EncodingFault
  | unexpectedEnd
  | invalidInteger
  | invalidText
  deriving DecidableEq

def EncodingFault.text : EncodingFault → String
  | .unexpectedEnd => "UnexpectedEnd"
  | .invalidInteger => "InvalidIntegerType"
  | .invalidText => "Utf8"

/-- Why an operation failed. -/
inductive Failure
  | config (fault : ConfigFault)
  | outOfBounds (index capacity : Nat)
  | registerCount (registers : Nat)
  | mismatch (dimension : Dimension) (expected actual : Nat)
  | full (kicks : Nat)
  | unknownHasher (name : String)
  | encoding (fault : EncodingFault)
  | zeroModulus

def Failure.message : Failure → String
  | .config fault => "Invalid configuration: " ++ fault.message
  | .outOfBounds index capacity =>
    "Index out of bounds: " ++ index.repr ++ " >= " ++ capacity.repr
  | .registerCount registers =>
    "Number of registers must be a power of two, got " ++ registers.repr
  | .mismatch dimension expected actual =>
    "Cannot merge: " ++ dimension.text ++ " mismatch (" ++ expected.repr ++ " != " ++ actual.repr ++ ")"
  | .full kicks => "Filter is full: no free slot after " ++ kicks.repr ++ " relocations"
  | .unknownHasher name => "Unknown hash algorithm: " ++ name
  | .encoding fault => "Serialization error: " ++ fault.text
  | .zeroModulus => "attempt to calculate the remainder with a divisor of zero"

/-- A value, or the reason why there is none. -/
abbrev Outcome (α : Type) := Except Failure α

/-- Fails with a configuration fault unless the condition holds. -/
def require (condition : Bool) (fault : ConfigFault) : Outcome Unit :=
  if condition then .ok () else .error (.config fault)

end Synopsis
