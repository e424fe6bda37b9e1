import ArmLink.Arm.Branch
import ArmLink.Arm.Encode.Memory

/-!
# Encoding of instructions

`encode` lowers one instruction to machine code. It depends on the instruction, its address and
the addresses of the labels around it, and on nothing else; only branches to labels look at
addresses at all.
-/

namespace ArmLink.Arm

namespace Encode

/-- The fixed bits of a branch. The condition stands either in the opcode or beside it. -/
def branchWord (op : Opcode) (cond : Condition) (suffixes : Suffixes) : Except EncodeError Word :=
  match op.branchCondition? with
  | none => .error (.notBranch op)
  | some implied =>
    let link : Word := if op = .bl then 1 <<< 24 else 0
    if !suffixes.isNone then .error (.branchSuffixes op suffixes)
    else if implied = .al then .ok (cond.field ||| (0x5 <<< 25) ||| link)
    else if cond = .al then .ok (implied.field ||| (0x5 <<< 25) ||| link)
    else .error (.branchCondition op)

/-- A branch. A symbol's address is not known yet, so that a branch to one is patched later. -/
def branch (i : Instruction) (target : BranchTarget) (pc : Nat) (labels : String → Option Nat) :
    Except EncodeError Code := do
  let word ← branchWord i.op i.condition i.suffixes
  match target with
  | .label name =>
    match labels name with
    | none => .error (.undefinedLabel name)
    | some place =>
      let displacement : Int := place - pc - Branch.readAhead
      if Branch.InReach displacement then
        return .ofWord (Branch.withDistance word (.ofInt 32 (displacement / 4)))
      else .error (.farLabel name displacement)
  | .symbol name offset =>
    let insn := Branch.withDistance word (.ofInt 32 ((offset - Branch.readAhead) / 4))
    return ⟨[word], some (.pending 0 4 .call (some name) (insn.setWidth 64))⟩

/-- A branch to the address in a register: an addition of zero with the program counter as
destination, or the dedicated instruction if a link is wanted. -/
def branchRegister (i : Instruction) (rm : Register) : Except EncodeError Code := do
  match i.op with
  | .b =>
    return .ofWord (i.condition.field ||| (0x4 <<< 21) ||| (1 <<< 25) ||| ((← register rm) <<< 16)
      ||| (BitVec.ofNat 32 Register.pc <<< 12))
  | .bl => return .ofWord (i.condition.field ||| (0x12fff3 <<< 4) ||| (← register rm))
  | _ => .error (.noForm i.op i.form)

/-- A move of a shifted register. -/
def shiftMove (i : Instruction) (rm : Register) (shift : Shift) (amount : ShiftAmount)
    (rd : Register) : Except EncodeError Word := do
  let operand ← shiftedRegister rm shift amount
  return moveBase i.condition i.suffixes ||| operand ||| ((← register rd) <<< 12)

/-- Sign or zero extension: shift to the left, then back to the right. -/
def extend (i : Instruction) (rm rd : Register) : Except EncodeError Code := do
  let shifts? : Option (Nat × Shift) :=
    match i.op with
    | .movb => some (24, .asr)
    | .movbu => some (24, .lsr)
    | .movh => some (16, .asr)
    | .movhu => some (16, .lsr)
    | _ => none
  match shifts? with
  | none => .error (.noForm i.op i.form)
  | some (bits, back) =>
    let left ← shiftMove i rm .lsl (.constant bits) rd
    let right ← shiftMove i rd back (.constant bits) rd
    return ⟨[left, right], none⟩

/-- A product of words. The destination must differ from the first factor on some cores; factors
commute, so they are exchanged. -/
def multiply (i : Instruction) (rm rs rd : Register) (ra : Option Register) :
    Except EncodeError Code := do
  let base? :=
    match i.op, ra with
    | .mul, none | .mula, some _ => multiply? i.op i.condition i.suffixes
    | _, _ => none
  match base? with
  | none => .error (.noForm i.op i.form)
  | some base =>
    let (rm, rs) := if rd = rm then (rs, rm) else (rm, rs)
    let accumulate ←
      match ra with
      | some ra => pure ((← register ra) <<< 12)
      | none => pure 0
    let rd ← register rd
    let rs ← register rs
    let rm ← register rm
    return .ofWord (base ||| (rd <<< 16) ||| accumulate ||| (rs <<< 8) ||| rm)

/-- A product of double width. -/
def multiplyLong (i : Instruction) (rm rs rdHi rdLo : Register) : Except EncodeError Code := do
  let base? :=
    match i.op with
    | .mull | .mulal | .mullu | .mulalu => multiply? i.op i.condition i.suffixes
    | _ => none
  match base? with
  | none => .error (.noForm i.op i.form)
  | some base =>
    let rdHi ← register rdHi
    let rdLo ← register rdLo
    let rs ← register rs
    let rm ← register rm
    return .ofWord (base ||| (rdHi <<< 16) ||| (rdLo <<< 12) ||| (rs <<< 8) ||| rm)

/-- Floating point operations with a single operand. -/
def isUnary : Opcode → Bool
  | .sqrtf | .sqrtd | .absf | .absd | .negf | .negd | .movf | .movd => true
  | _ => false

/-- Floating point arithmetic. A comparison is followed by a copy of its result to the flags. -/
def floatArith (i : Instruction) (fm : Register) (fn : Option Register) (fd : Register) :
    Except EncodeError Code := do
  match floatOpcode? i.op i.condition with
  | none => .error (.noForm i.op i.form)
  | some base =>
    if i.op = .cmpf ∨ i.op = .cmpd then
      let other ← register (fn.getD fd)
      let fm ← register fm
      return ⟨[base ||| (other <<< 12) ||| fm, i.condition.field ||| 0x0ef1fa10], none⟩
    else
      let first ← if isUnary i.op then pure 0 else register (fn.getD fd)
      let fm ← register fm
      let fd ← register fd
      return .ofWord (base ||| fm ||| (first <<< 16) ||| (fd <<< 12))

/-- Opcodes that access integers in memory. -/
def isMemory : Opcode → Bool
  | .movw | .movb | .movbu | .movh | .movhu => true
  | _ => false

/-- The code of an instruction that is given by its form. -/
def form (i : Instruction) (pc : Nat) (labels : String → Option Nat) : Except EncodeError Code := do
  match i.form with
  | .registers rm rn rd =>
    match dataProcessing? i.op i.condition i.suffixes with
    | none => .error (.noForm i.op i.form)
    | some base =>
      let rm ← register rm
      return .ofWord (base ||| rm ||| (← operandRegisters i.op rn rd))
  | .immediate value rn rd =>
    match dataOpcode? i.op with
    | none => .error (.noForm i.op i.form)
    | some _ => dataImmediate i.op i.condition i.suffixes (← constant value) rn rd
  | .shiftedRegister rm shift amount rn rd =>
    match dataProcessing? i.op i.condition i.suffixes with
    | none => .error (.noForm i.op i.form)
    | some base =>
      let operand ← shiftedRegister rm shift amount
      return .ofWord (base ||| operand ||| (← operandRegisters i.op rn rd))
  | .addressOf offset base rd =>
    if i.op = .movw then
      dataImmediate .add i.condition i.suffixes (.ofInt 32 offset) (some base) rd
    else .error (.noForm i.op i.form)
  | .branch target => branch i target pc labels
  | .branchRegister rm => branchRegister i rm
  | .shift amount rm rd =>
    match i.op with
    | .sll => return .ofWord (← shiftMove i rm .lsl amount rd)
    | .srl => return .ofWord (← shiftMove i rm .lsr amount rd)
    | .sra => return .ofWord (← shiftMove i rm .asr amount rd)
    | _ => .error (.noForm i.op i.form)
  | .softwareInterrupt value =>
    if i.op ≠ .swi then .error (.noForm i.op i.form)
    else if value < 0x1000000 then
      return .ofWord (i.condition.field ||| (0xf <<< 24) ||| BitVec.ofNat 32 value)
    else .error (.wideInterrupt value)
  | .word value symbol =>
    if i.op ≠ .word then .error (.noForm i.op i.form)
    else
      match symbol with
      | some name => return ⟨[0], some (.pending 0 4 .absolute (some name) (.ofInt 64 value))⟩
      | none => return .ofWord (← constant value)
  | .loadConstant value symbol rd =>
    if i.op ≠ .movw then .error (.noForm i.op i.form)
    else
      match symbol with
      | some name => loadPatched i.condition rd .absolute name value
      | none => dataImmediate i.op i.condition i.suffixes (← constant value) none rd
  | .extend rm rd => extend i rm rd
  | .multiply rm rs rd ra => multiply i rm rs rd ra
  | .multiplyLong rm rs rdHi rdLo => multiplyLong i rm rs rdHi rdLo
  | .load offset base rd => load i offset base rd
  | .store rs offset base => store i rs offset base
  | .loadIndexed base index shift rd =>
    return .ofWord (← indexed i (loadAccess? i.op) base index shift rd)
  | .storeIndexed rs base index shift =>
    return .ofWord ((← indexed i (storeAccess? i.op) base index shift rs) ^^^ loadBit)
  | .loadSymbol symbol offset rd =>
    if isMemory i.op then
      let address ← loadPatched i.condition .scratch .absolute symbol offset
      address.append (← load i 0 .scratch rd)
    else .error (.noForm i.op i.form)
  | .storeSymbol rs symbol offset =>
    if !isMemory i.op then .error (.noForm i.op i.form)
    else if rs = Register.scratch then .error .scratchStored
    else
      let address ← loadPatched i.condition .scratch .absolute symbol offset
      address.append (← store i rs 0 .scratch)
  | .floatLoad offset base fd => floatMemory i 0 offset base fd
  | .floatStore fs offset base => floatMemory i loadBit offset base fs
  | .floatArith fm fn fd => floatArith i fm fn fd
  | .countLeadingZeros rm rd =>
    if i.op = .clz then
      let rm ← register rm
      let rd ← register rd
      return .ofWord (i.condition.field ||| (0x16f <<< 16) ||| (0xf1 <<< 4) ||| rm ||| (rd <<< 12))
    else .error (.noForm i.op i.form)
  | .tlsOffset symbol rd =>
    if i.op = .movw then loadPatched i.condition rd .tls symbol 0
    else .error (.noForm i.op i.form)

end Encode

/-- The code of an instruction at the address `pc`, where `labels` gives the addresses of the labels
of the same function. -/
def encode (i : Instruction) (pc : Nat) (labels : String → Option Nat) : Except EncodeError Code :=
  Encode.form i pc labels

end ArmLink.Arm
