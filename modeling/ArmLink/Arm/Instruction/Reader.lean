import ArmLink.Arm.Instruction
import ArmLink.Data.Reader

/-!
# Instructions as structured data

How instructions are written in object files: a record of opcode, condition, suffixes, form and
label. Each form is named, and its operands are the fields of a record of their own.
-/

namespace ArmLink.Arm

open Data Data.Fields Data.Reader

def Opcode.reader : Reader Opcode :=
  choice (Opcode.spellings.map fun (name, op) => (name, .unit op))

def Condition.reader : Reader Condition :=
  choice (Condition.spellings.map fun (name, c) => (name, .unit c))

/-- The suffixes with one more, given by its letter. -/
def Suffixes.add (s : Suffixes) : String → Except ShapeError Suffixes
  | "S" => .ok { s with setFlags := true }
  | "P" => .ok { s with postIndex := true }
  | "W" => .ok { s with writeback := true }
  | "U" => .ok { s with subtract := true }
  | other => .error (.unknownSuffix other)

def Suffixes.reader : Reader Suffixes := fun d v => do
  (← Reader.list Reader.string d v).foldlM Suffixes.add .none

def Shift.reader : Reader Shift :=
  choice [("lsl", .unit .lsl), ("lsr", .unit .lsr), ("asr", .unit .asr), ("ror", .unit .ror)]

def Register.reader : Reader Register := unsigned 8

def ShiftAmount.reader : Reader ShiftAmount :=
  choice
    [("constant", .value fun d v => .constant <$> unsigned 8 d v),
     ("register", .value fun d v => .register <$> Register.reader d v)]

/-- A register that must be given. -/
def register (name : String) : Fields Register := required name Register.reader

/-- A register that may be left out. -/
def register? (name : String) : Fields (Option Register) := optional name Register.reader

/-- A register that is `R0` unless it is given. -/
def registerOrZero (name : String) : Fields Register := withDefault name Register.reader 0

/-- An offset that is zero unless it is given. -/
def offsetOrZero : Fields Int := withDefault "offset" (signed 32) 0

/-- A constant that is zero unless it is given. -/
def valueOrZero : Fields Int := withDefault "value" (signed 64) 0

def BranchTarget.reader : Reader BranchTarget :=
  choice
    [("label", .value fun d v => .label <$> Reader.string d v),
     ("symbol", .fields (.symbol <$> required "name" Reader.string <*> offsetOrZero))]

def Form.reader : Reader Form :=
  choice
    [("registers",
      .fields (.registers <$> register "rm" <*> register? "rn" <*> registerOrZero "rd")),
     ("immediate",
      .fields (.immediate <$> required "value" (signed 64) <*> register? "rn"
        <*> registerOrZero "rd")),
     ("shifted_register",
      .fields (.shiftedRegister <$> register "rm" <*> required "shift" Shift.reader
        <*> required "amount" ShiftAmount.reader <*> register? "rn" <*> registerOrZero "rd")),
     ("address_of",
      .fields (.addressOf <$> required "offset" (signed 32) <*> register "base"
        <*> register "rd")),
     ("branch", .fields (.branch <$> required "target" BranchTarget.reader)),
     ("branch_register", .fields (.branchRegister <$> register "rm")),
     ("shift",
      .fields (.shift <$> required "amount" ShiftAmount.reader <*> register "rm"
        <*> register "rd")),
     ("software_interrupt",
      .fields (.softwareInterrupt <$> withDefault "value" (unsigned 32) 0)),
     ("word", .fields (.word <$> valueOrZero <*> optional "symbol" Reader.string)),
     ("load_constant",
      .fields (.loadConstant <$> valueOrZero <*> optional "symbol" Reader.string
        <*> register "rd")),
     ("extend", .fields (.extend <$> register "rm" <*> register "rd")),
     ("multiply",
      .fields (.multiply <$> register "rm" <*> register "rs" <*> register "rd"
        <*> register? "ra")),
     ("multiply_long",
      .fields (.multiplyLong <$> register "rm" <*> register "rs" <*> register "rd_hi"
        <*> register "rd_lo")),
     ("load", .fields (.load <$> offsetOrZero <*> register "base" <*> register "rd")),
     ("store", .fields (.store <$> register "rs" <*> offsetOrZero <*> register "base")),
     ("load_indexed",
      .fields (.loadIndexed <$> register "base" <*> register "index"
        <*> withDefault "shift" (unsigned 8) 0 <*> register "rd")),
     ("store_indexed",
      .fields (.storeIndexed <$> register "rs" <*> register "base" <*> register "index"
        <*> withDefault "shift" (unsigned 8) 0)),
     ("load_symbol",
      .fields (.loadSymbol <$> required "symbol" Reader.string <*> offsetOrZero
        <*> register "rd")),
     ("store_symbol",
      .fields (.storeSymbol <$> register "rs" <*> required "symbol" Reader.string
        <*> offsetOrZero)),
     ("float_load", .fields (.floatLoad <$> offsetOrZero <*> register "base" <*> register "fd")),
     ("float_store",
      .fields (.floatStore <$> register "fs" <*> offsetOrZero <*> register "base")),
     ("float_arith",
      .fields (.floatArith <$> register "fm" <*> register? "fn" <*> registerOrZero "fd")),
     ("count_leading_zeros",
      .fields (.countLeadingZeros <$> register "rm" <*> register "rd")),
     ("tls_offset",
      .fields (.tlsOffset <$> required "symbol" Reader.string <*> register "rd"))]

def Instruction.fields : Fields Instruction :=
  Instruction.mk <$> required "op" Opcode.reader <*> withDefault "cond" Condition.reader .al
    <*> withDefault "flags" Suffixes.reader .none <*> required "form" Form.reader
    <*> optional "label" Reader.string

/-- An instruction. Fields that it does not know are skipped. -/
def Instruction.reader : Reader Instruction := Instruction.fields.read false

end ArmLink.Arm
