import ArmLink.Text.Number

/-!
# Alignments

An alignment is a power of two, kept as its exponent. Addresses are rounded up with a check that
the result is still a 64-bit address.
-/

namespace ArmLink

/-- The number of 64-bit addresses. -/
abbrev addressSpace : Nat := 0x10000000000000000

/-- A power of two that addresses are rounded to. -/
structure Alignment where
  exponent : Nat
  deriving DecidableEq, Repr, Inhabited

/-- Why a number is not an alignment that symbols may ask for. -/
inductive AlignmentError where
  | notPowerOfTwo (raw : Nat)
  | tooLarge (raw : Nat)
  deriving DecidableEq, Repr

def AlignmentError.message : AlignmentError → String
  | notPowerOfTwo raw => "Invalid alignment " ++ Text.hex raw
  | tooLarge raw => "Unsupported alignment " ++ Text.hex raw

namespace Alignment

/-- No alignment at all. -/
def byte : Alignment := ⟨0⟩

/-- The largest alignment that a symbol may ask for. -/
def largest : Alignment := ⟨15⟩

/-- The largest alignment chosen for data that asks for none. -/
def largestData : Alignment := ⟨3⟩

/-- Instructions and table entries are aligned to words. -/
def word : Alignment := ⟨2⟩

/-- Segments start at page boundaries, in the file and in memory. -/
def page : Alignment := ⟨12⟩

/-- The power of two itself. -/
def value (a : Alignment) : Nat := Nat.pow 2 a.exponent

/-- The alignment of `raw` bytes. -/
def ofNat? (raw : Nat) : Except AlignmentError Alignment :=
  if raw = 0 ∨ raw ≠ Nat.pow 2 raw.log2 then .error (.notPowerOfTwo raw)
  else if largest.exponent < raw.log2 then .error (.tooLarge raw)
  else .ok ⟨raw.log2⟩

/-- The largest alignment of data that exceeds neither its size nor `largestData`. -/
def forSize (size : Nat) : Alignment :=
  if size = 0 then byte else ⟨min largestData.exponent size.log2⟩

/-- The least multiple of the alignment that is not below `n`. -/
def alignUp (a : Alignment) (n : Nat) : Nat := (n + (a.value - 1)) / a.value * a.value

/-- The greatest multiple of the alignment that is not above `n`. -/
def alignDown (a : Alignment) (n : Nat) : Nat := n / a.value * a.value

/-- `alignUp`, unless the result lies outside the address space. -/
def alignUp? (a : Alignment) (n : Nat) : Option Nat :=
  if a.alignUp n < addressSpace then some (a.alignUp n) else none

/-- The stricter of two alignments. -/
def max (a b : Alignment) : Alignment := if a.exponent < b.exponent then b else a

/-- The strictest of several alignments, `byte` if there is none. -/
def strictest (as : List Alignment) : Alignment := as.foldl max byte

end Alignment

end ArmLink
