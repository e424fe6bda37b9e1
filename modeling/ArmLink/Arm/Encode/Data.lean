import ArmLink.Arm.Code
import ArmLink.Arm.Immediate

/-!
# Encoding of data-processing instructions

* `register`, `constant` — the operands that a field can hold;
* `dataProcessing?`, `multiply?`, `floatOpcode?` — the fixed bits of an opcode;
* `dataImmediate` — an operation with any 32-bit constant: as a rotated immediate, by way of the
  opcode's partner, or through a literal that is kept between the instructions.
-/

namespace ArmLink.Arm.Encode

/-- A register number as a field at bit 0. -/
def register (r : Register) : Except EncodeError Word :=
  if r < 16 then .ok (BitVec.ofNat 32 r) else .error (.noRegister r)

/-- A constant must fit in 32 bits, either signed or unsigned. -/
def constant (value : Int) : Except EncodeError Word :=
  if -0x80000000 ≤ value ∧ value < 0x100000000 then .ok (BitVec.ofInt 32 value)
  else .error (.wideConstant value)

/-- The operation field of a data-processing opcode. Comparisons always set the flags. -/
def dataOpcode? : Opcode → Option Word
  | .and => some (0x0 <<< 21)
  | .eor => some (0x1 <<< 21)
  | .sub => some (0x2 <<< 21)
  | .rsb => some (0x3 <<< 21)
  | .add => some (0x4 <<< 21)
  | .adc => some (0x5 <<< 21)
  | .sbc => some (0x6 <<< 21)
  | .rsc => some (0x7 <<< 21)
  | .tst => some ((0x8 <<< 21) ||| (1 <<< 20))
  | .teq => some ((0x9 <<< 21) ||| (1 <<< 20))
  | .cmp => some ((0xa <<< 21) ||| (1 <<< 20))
  | .cmn => some ((0xb <<< 21) ||| (1 <<< 20))
  | .orr => some (0xc <<< 21)
  | .movw => some (0xd <<< 21)
  | .bic => some (0xe <<< 21)
  | .mvn => some (0xf <<< 21)
  | _ => none

/-- The condition, an operation, and the bit that lets the operation set the flags. -/
def withCondition (operation : Word) (cond : Condition) (suffixes : Suffixes) : Word :=
  cond.field ||| operation ||| (if suffixes.setFlags then 1 <<< 20 else 0)

/-- The fixed bits of a data-processing instruction. -/
def dataProcessing? (op : Opcode) (cond : Condition) (suffixes : Suffixes) : Option Word :=
  (dataOpcode? op).map (withCondition · cond suffixes)

/-- `dataProcessing?` of an opcode that is known to have one. -/
def dataProcessing (op : Opcode) (cond : Condition) (suffixes : Suffixes) : Word :=
  (dataProcessing? op cond suffixes).getD 0

/-- The fixed bits of a multiplication. -/
def multiply? (op : Opcode) (cond : Condition) (suffixes : Suffixes) : Option Word :=
  let operation : Option Word :=
    match op with
    | .mul => some 0
    | .mula => some (1 <<< 21)
    | .mullu => some (4 <<< 21)
    | .mull => some (6 <<< 21)
    | .mulalu => some (5 <<< 21)
    | .mulal => some (7 <<< 21)
    | _ => none
  operation.map fun bits => withCondition (bits ||| (0x9 <<< 4)) cond suffixes

/-- The fixed bits of floating point arithmetic. -/
def floatOpcode? (op : Opcode) (cond : Condition) : Option Word :=
  let operation : Option Word :=
    match op with
    | .addf | .addd => some (0x3 <<< 20)
    | .subf | .subd => some ((0x3 <<< 20) ||| (4 <<< 4))
    | .mulf | .muld => some (0x2 <<< 20)
    | .divf | .divd => some (0x8 <<< 20)
    | .sqrtf | .sqrtd => some ((0xb <<< 20) ||| (1 <<< 16) ||| (0xc <<< 4))
    | .absf | .absd => some ((0xb <<< 20) ||| (0xc <<< 4))
    | .negf | .negd => some ((0xb <<< 20) ||| (1 <<< 16) ||| (4 <<< 4))
    | .cmpf | .cmpd => some ((0xb <<< 20) ||| (4 <<< 16) ||| (0xc <<< 4))
    | .movf | .movd => some ((0xb <<< 20) ||| (4 <<< 4))
    | _ => none
  let precision : Word := if op.isDouble then 0xb <<< 8 else 0xa <<< 8
  operation.map fun bits => cond.field ||| (0xe <<< 24) ||| bits ||| precision

/-- The register fields of a data-processing instruction. A move has no first operand, and a
comparison has no destination; without a first operand the destination takes its part. -/
def operandRegisters (op : Opcode) (rn : Option Register) (rd : Register) :
    Except EncodeError Word := do
  if op.isMove then
    return (← register rd) <<< 12
  else if op.isComparison then
    return (← register (rn.getD rd)) <<< 16
  else
    let first ← register (rn.getD rd)
    let destination ← register rd
    return (first <<< 16) ||| (destination <<< 12)

/-- The two-bit code of a shift. -/
def shiftCode : Shift → Word
  | .lsl => 0
  | .lsr => 1
  | .asr => 2
  | .ror => 3

/-- A shifted register as second operand. -/
def shiftedRegister (rm : Register) (shift : Shift) (amount : ShiftAmount) :
    Except EncodeError Word := do
  let base := (← register rm) ||| (shiftCode shift <<< 5)
  match amount with
  | .constant n =>
    if n < 32 then return base ||| (BitVec.ofNat 32 n <<< 7) else .error (.farShift n)
  | .register rs => return base ||| ((← register rs) <<< 8) ||| (1 <<< 4)

/-- The fixed bits of a move of a shifted register. -/
def moveBase (cond : Condition) (suffixes : Suffixes) : Word :=
  withCondition (0xd <<< 21) cond suffixes

/-- The opcode that computes the same from the complemented or negated constant. -/
def partner? (op : Opcode) (value : Word) : Option (Opcode × Word) :=
  match op with
  | .movw => some (.mvn, ~~~ value)
  | .mvn => some (.movw, ~~~ value)
  | .and => some (.bic, ~~~ value)
  | .bic => some (.and, ~~~ value)
  | .add => some (.sub, -value)
  | .sub => some (.add, -value)
  | .cmp => some (.cmn, -value)
  | .cmn => some (.cmp, -value)
  | _ => none

/-- The word at an offset below 4096 from a register, into a register. The suffixes choose the
direction of the offset and what becomes of the base. -/
def loadWord (offset : Int) (base rt : Register) (cond : Condition) (suffixes : Suffixes) :
    Except EncodeError Word := do
  let word := cond.field
    ||| (if suffixes.postIndex then 0 else 1 <<< 24)
    ||| (if suffixes.subtract then 0 else 1 <<< 23)
    ||| (if suffixes.writeback then 1 <<< 21 else 0)
    ||| (1 <<< 26) ||| (1 <<< 20)
  let word := if offset < 0 then word ^^^ (1 <<< 23) else word
  if offset.natAbs < 0x1000 then
    let base ← register base
    let rt ← register rt
    return word ||| BitVec.ofNat 32 offset.natAbs ||| (base <<< 16) ||| (rt <<< 12)
  else .error (.wideOffset offset.natAbs base)

/-- A branch past the next word, which is a literal. -/
def skipLiteral : Word := 0xea000000

/-- A literal into a register: load it, branch past it, the literal itself. -/
def loadLiteral (cond : Condition) (rd : Register) (value : Word) : Except EncodeError Code := do
  return ⟨[← loadWord 0 .pc rd cond .none, skipLiteral, value], none⟩

/-- A literal that is patched later, into a register. -/
def loadPatched (cond : Condition) (rd : Register) (kind : Relocation.Kind) (symbol : String)
    (addend : Int) : Except EncodeError Code := do
  let code ← loadLiteral cond rd 0
  return { code with relocation := some (.pending 8 4 kind (some symbol) (.ofInt 64 addend)) }

/-- A constant into a register by the shortest sequence. -/
def materialize (cond : Condition) (rd : Register) (value : Word) : Except EncodeError Code := do
  let destination := (← register rd) <<< 12
  match Immediate.encode? value, Immediate.encode? (~~~ value) with
  | some field, _ =>
    return .ofWord (dataProcessing .movw cond .none ||| field ||| destination)
  | none, some field =>
    return .ofWord (dataProcessing .mvn cond .none ||| field ||| destination)
  | none, none => loadLiteral cond rd value

/-- The scratch register as second operand. -/
def scratchField : Word := BitVec.ofNat 32 Register.scratch

/-- Tries the constant itself, then the opcode's partner, and then takes the constant from a
literal. A move loads the literal straight into its destination, unless it has to set the flags; all
else passes through the scratch register. -/
def dataImmediate (op : Opcode) (cond : Condition) (suffixes : Suffixes) (value : Word)
    (rn : Option Register) (rd : Register) : Except EncodeError Code := do
  match Immediate.encode? value with
  | some field =>
    return .ofWord (dataProcessing op cond suffixes ||| field ||| (← operandRegisters op rn rd))
  | none =>
  match (partner? op value).bind fun (other, v) => (Immediate.encode? v).map (other, ·) with
  | some (other, field) =>
    return .ofWord
      (dataProcessing other cond suffixes ||| field ||| (← operandRegisters other rn rd))
  | none =>
  if op.isMove then
    let literal := if op = .mvn then ~~~ value else value
    if suffixes.setFlags then
      let code ← materialize cond .scratch literal
      code.append (.ofWord
        (dataProcessing .movw cond suffixes ||| scratchField ||| (← operandRegisters op rn rd)))
    else
      loadLiteral cond rd literal
  else if rn.getD rd = Register.scratch then
    .error (.scratchOperand value)
  else
    let code ← materialize cond .scratch value
    code.append (.ofWord
      (dataProcessing op cond suffixes ||| scratchField ||| (← operandRegisters op rn rd)))

end ArmLink.Arm.Encode
