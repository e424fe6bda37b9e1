import ArmLink.Arm.Condition

/-!
# Opcodes

The operations that instructions name. Which words an opcode gives depends on the operands of the
instruction, so an opcode by itself only tells

* `branchCondition?` — whether it is a branch, and the condition that its name implies;
* `isComparison`, `isMove` — which of the two operand registers it lacks;
* `isDouble` — which floating point precision it works in.
-/

namespace ArmLink.Arm

inductive Opcode where
  | and | eor | sub | rsb | add | adc | sbc | rsc | tst | teq | cmp | cmn | orr | movw | bic | mvn
  | sll | srl | sra
  | mul | mula | mull | mulal | mullu | mulalu
  | b | bl | beq | bne | bcs | bhs | bcc | blo | bmi | bpl | bvs | bvc | bhi | bls | bge | blt | bgt
  | ble
  | swi
  | movb | movbu | movh | movhu
  | addf | addd | subf | subd | mulf | muld | divf | divd
  | sqrtf | sqrtd | absf | absd | negf | negd | cmpf | cmpd | movf | movd
  | clz | word
  deriving DecidableEq, Repr, Inhabited

namespace Opcode

def spellings : List (String × Opcode) :=
  [("AND", and), ("EOR", eor), ("SUB", sub), ("RSB", rsb), ("ADD", add), ("ADC", adc), ("SBC", sbc),
   ("RSC", rsc), ("TST", tst), ("TEQ", teq), ("CMP", cmp), ("CMN", cmn), ("ORR", orr),
   ("MOVW", movw), ("BIC", bic), ("MVN", mvn),
   ("SLL", sll), ("SRL", srl), ("SRA", sra),
   ("MUL", mul), ("MULA", mula), ("MULL", mull), ("MULAL", mulal), ("MULLU", mullu),
   ("MULALU", mulalu),
   ("B", b), ("BL", bl), ("BEQ", beq), ("BNE", bne), ("BCS", bcs), ("BHS", bhs), ("BCC", bcc),
   ("BLO", blo), ("BMI", bmi), ("BPL", bpl), ("BVS", bvs), ("BVC", bvc), ("BHI", bhi), ("BLS", bls),
   ("BGE", bge), ("BLT", blt), ("BGT", bgt), ("BLE", ble),
   ("SWI", swi),
   ("MOVB", movb), ("MOVBU", movbu), ("MOVH", movh), ("MOVHU", movhu),
   ("ADDF", addf), ("ADDD", addd), ("SUBF", subf), ("SUBD", subd), ("MULF", mulf), ("MULD", muld),
   ("DIVF", divf), ("DIVD", divd), ("SQRTF", sqrtf), ("SQRTD", sqrtd), ("ABSF", absf),
   ("ABSD", absd), ("NEGF", negf), ("NEGD", negd), ("CMPF", cmpf), ("CMPD", cmpd), ("MOVF", movf),
   ("MOVD", movd),
   ("CLZ", clz), ("WORD", word)]

def mnemonic (op : Opcode) : String :=
  match spellings.find? (·.2 = op) with
  | some (text, _) => text
  | none => ""

/-- How messages name an opcode: its mnemonic with all letters but the first in lower case. -/
def name (op : Opcode) : String :=
  match op.mnemonic.toList with
  | [] => ""
  | c :: cs => String.ofList (c :: cs.map Char.toLower)

/-- The condition implied by a branch opcode; `none` for opcodes that are no branches. -/
def branchCondition? : Opcode → Option Condition
  | b | bl => some .al
  | beq => some .eq
  | bne => some .ne
  | bcs | bhs => some .cs
  | bcc | blo => some .cc
  | bmi => some .mi
  | bpl => some .pl
  | bvs => some .vs
  | bvc => some .vc
  | bhi => some .hi
  | bls => some .ls
  | bge => some .ge
  | blt => some .lt
  | bgt => some .gt
  | ble => some .le
  | _ => none

/-- A comparison only sets the flags and has no destination register. -/
def isComparison : Opcode → Bool
  | tst | teq | cmp | cmn => true
  | _ => false

/-- A move has no first operand register. -/
def isMove : Opcode → Bool
  | movw | mvn => true
  | _ => false

/-- Whether a floating point opcode works in double precision. -/
def isDouble : Opcode → Bool
  | addd | subd | muld | divd | sqrtd | absd | negd | cmpd | movd => true
  | _ => false

end Opcode

end ArmLink.Arm
