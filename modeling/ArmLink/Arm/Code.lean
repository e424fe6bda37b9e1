import ArmLink.Arm.Instruction.Text
import ArmLink.Relocation

/-!
# Machine code of an instruction

An instruction becomes a few words and at most one relocation, whose offset counts from the first
word. `Code.append` puts two pieces one after the other; it refuses a second relocation.
-/

namespace ArmLink.Arm

inductive EncodeError where
  | noForm (op : Opcode) (form : Form)
  | noRegister (r : Register)
  | wideConstant (value : Int)
  | secondRelocation
  | notBranch (op : Opcode)
  | branchSuffixes (op : Opcode) (suffixes : Suffixes)
  /-- a branch has a condition beside the one that its opcode implies -/
  | branchCondition (op : Opcode)
  | undefinedLabel (name : String)
  | farLabel (name : String) (displacement : Int)
  | wideInterrupt (value : Nat)
  | farShift (amount : Nat)
  /-- the constant needs the scratch register, which is an operand -/
  | scratchOperand (value : Word)
  /-- the address needs the scratch register, which is to be stored -/
  | scratchStored
  /-- the offset needs the scratch register, which takes part in the access -/
  | scratchAddress
  /-- the offset needs more bits than its field has -/
  | wideOffset (offset : Int) (base : Register)
  | shiftedIndex (op : Opcode)
  /-- floating point offsets are counted in words -/
  | oddOffset (offset : Int)
  deriving DecidableEq, Repr

def scratchName : String := s!"R{Register.scratch}"

def EncodeError.message : EncodeError → String
  | noForm op form => "no encoding for " ++ op.name ++ " with operands " ++ form.text
  | noRegister r => s!"no encoding for register R{r}"
  | wideConstant value => s!"no encoding for constant {value}: does not fit in 32 bits"
  | secondRelocation => "instruction needs more than one relocation"
  | notBranch op => "no encoding for " ++ op.name ++ " as a branch"
  | branchSuffixes op suffixes =>
    "no encoding for " ++ op.name ++ " with suffixes " ++ suffixes.text
  | branchCondition op => "no encoding for " ++ op.name ++ " with a condition suffix"
  | undefinedLabel name => s!"undefined label `{name}`"
  | farLabel name displacement => s!"branch to `{name}` out of range: {displacement}"
  | wideInterrupt value => "no encoding for SWI with value " ++ Text.hex value
  | farShift amount => s!"no encoding for shift by {amount}"
  | scratchOperand value =>
    "cannot materialise " ++ Text.hex value.toNat ++ ": " ++ scratchName ++ " is an operand"
  | scratchStored => "cannot store " ++ scratchName ++ ", it is the scratch register"
  | scratchAddress => "cannot address via " ++ scratchName ++ " with a large offset"
  | wideOffset offset base => s!"literal span too large: {offset} (R{base})"
  | shiftedIndex op => "no encoding for " ++ op.name ++ " with a shifted index"
  | oddOffset offset => s!"odd offset for floating point op: {offset}"

/-- The words of an instruction and what is still to be patched in them. -/
structure Code where
  words : List Word
  /-- the patch, with its offset from the first word -/
  relocation : Option (Relocation String)
  deriving DecidableEq, Repr

namespace Code

def ofWord (w : Word) : Code := ⟨[w], none⟩

def size (c : Code) : Nat := 4 * c.words.length

def bytes (c : Code) : Bytes := c.words.flatMap Bytes.ofWord

/-- The code `c` followed by the code `d`. -/
def append (c d : Code) : Except EncodeError Code :=
  match c.relocation, d.relocation with
  | some _, some _ => .error .secondRelocation
  | some r, none => .ok ⟨c.words ++ d.words, some r⟩
  | none, r => .ok ⟨c.words ++ d.words, r.map (·.shifted c.size)⟩

end Code

end ArmLink.Arm
