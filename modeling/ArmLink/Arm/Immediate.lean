import ArmLink.Word

/-!
# Rotated immediates

A data-processing instruction holds a constant as eight bits and a rotation: the 12-bit field
`r * 256 + b` stands for `b` rotated to the right by `2 * r`. `Immediate.encode?` finds the field
with the smallest rotation, if there is any, and sets the bit that marks an immediate operand.
-/

namespace ArmLink.Arm.Immediate

/-- The bit that tells an immediate operand from a register. -/
def mark : Word := 1 <<< 25

/-- The field with rotation `r` that stands for `value`, if eight bits are enough. -/
def withRotation? (value : Word) (r : Nat) : Option Word :=
  let byte := value.rotateLeft (2 * r)
  if byte &&& ~~~ 0xff = 0 then some ((BitVec.ofNat 32 r <<< 8) ||| byte ||| mark) else none

/-- The marked field that stands for `value`, if there is one. -/
def encode? (value : Word) : Option Word := (List.range 16).findSome? (withRotation? value)

/-- The constant that a field stands for. Bits outside the field are ignored. -/
def decode (field : Word) : Word :=
  (field &&& 0xff).rotateRight (2 * ((field >>> 8) &&& 0xf).toNat)

end ArmLink.Arm.Immediate
