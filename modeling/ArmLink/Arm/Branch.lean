import ArmLink.Word

/-!
# Branches

A branch holds a signed distance, counted in words, in its low 24 bits. The distance is measured
from the value that the instruction reads from the program counter, which is its own address
plus 8.
-/

namespace ArmLink.Arm.Branch

/-- How far ahead of an instruction's address the program counter reads. -/
def readAhead : Int := 8

/-- The least displacement of a branch, in bytes. -/
def leastReach : Int := -0x2000000

/-- The end of the displacements that a branch can have, in bytes. -/
def reachEnd : Int := 0x2000000

/-- Whether a branch can have this displacement, in bytes. -/
def InReach (displacement : Int) : Prop := leastReach ≤ displacement ∧ displacement < reachEnd

instance (displacement : Int) : Decidable (InReach displacement) :=
  inferInstanceAs (Decidable (_ ∧ _))

/-- Whether a branch also links, that is, leaves a return address. -/
def isLink (w : Word) : Bool := w.field 25 28 = 0b101 && w.bit 24 = 1

/-- The displacement of a branch, in bytes. -/
def displacement (w : Word) : Int := (w.field 0 24).signedField 23 * 4

/-- The branch `w` with the distance `words` in its low bits. -/
def withDistance (w words : Word) : Word := w.withField 0 24 words

/-- The branch `w` sent `words` words further. -/
def advance (w words : Word) : Word := withDistance w (w + words)

end ArmLink.Arm.Branch
