import ArmLink.Arm.Instruction
import ArmLink.Text.Quoted

/-!
# Instructions in messages

Messages show an instruction as its opcode, its condition unless that is "always", its suffixes if
there are any, and its form with every operand by name. Strings among the operands are quoted, and
an optional operand says whether it is there.
-/

namespace ArmLink.Arm

open ArmLink.Text

/-- An optional operand. -/
def optional {α : Type} (text : α → String) : Option α → String
  | none => "None"
  | some a => "Some(" ++ text a ++ ")"

/-- A name with operands, each by its own name. -/
def record (name : String) (operands : List (String × String)) : String :=
  name ++ " \x7b " ++ ", ".intercalate (operands.map fun (field, text) => field ++ ": " ++ text)
    ++ " \x7d"

/-- The suffixes, in the order S, P, W, U. -/
def Suffixes.text (s : Suffixes) : String :=
  let names := (if s.setFlags then ["SET_FLAGS"] else []) ++
    (if s.postIndex then ["POST_INDEX"] else []) ++
    (if s.writeback then ["WRITEBACK"] else []) ++
    (if s.subtract then ["UNSIGNED"] else [])
  "InstructionFlags(" ++ (if names.isEmpty then "0x0" else " | ".intercalate names) ++ ")"

def Shift.text : Shift → String
  | .lsl => "Lsl"
  | .lsr => "Lsr"
  | .asr => "Asr"
  | .ror => "Ror"

def ShiftAmount.text : ShiftAmount → String
  | .constant amount => s!"Constant({amount})"
  | .register rs => s!"Register({rs})"

def BranchTarget.text : BranchTarget → String
  | .label name => "Label(" ++ quoted name ++ ")"
  | .symbol name offset => record "Symbol" [("name", quoted name), ("offset", toString offset)]

def Form.text : Form → String
  | .registers rm rn rd =>
    record "Registers" [("rm", toString rm), ("rn", optional toString rn), ("rd", toString rd)]
  | .immediate value rn rd =>
    record "Immediate"
      [("value", toString value), ("rn", optional toString rn), ("rd", toString rd)]
  | .shiftedRegister rm direction amount rn rd =>
    record "ShiftedRegister"
      [("rm", toString rm), ("shift", direction.text), ("amount", amount.text),
       ("rn", optional toString rn), ("rd", toString rd)]
  | .addressOf offset base rd =>
    record "AddressOf"
      [("offset", toString offset), ("base", toString base), ("rd", toString rd)]
  | .branch target => record "Branch" [("target", target.text)]
  | .branchRegister rm => record "BranchRegister" [("rm", toString rm)]
  | .shift amount rm rd =>
    record "Shift" [("amount", amount.text), ("rm", toString rm), ("rd", toString rd)]
  | .softwareInterrupt value => record "SoftwareInterrupt" [("value", toString value)]
  | .word value symbol =>
    record "Word" [("value", toString value), ("symbol", optional quoted symbol)]
  | .loadConstant value symbol rd =>
    record "LoadConstant"
      [("value", toString value), ("symbol", optional quoted symbol), ("rd", toString rd)]
  | .extend rm rd => record "Extend" [("rm", toString rm), ("rd", toString rd)]
  | .multiply rm rs rd ra =>
    record "Multiply"
      [("rm", toString rm), ("rs", toString rs), ("rd", toString rd),
       ("ra", optional toString ra)]
  | .multiplyLong rm rs rdHi rdLo =>
    record "MultiplyLong"
      [("rm", toString rm), ("rs", toString rs), ("rd_hi", toString rdHi),
       ("rd_lo", toString rdLo)]
  | .load offset base rd =>
    record "Load" [("offset", toString offset), ("base", toString base), ("rd", toString rd)]
  | .store rs offset base =>
    record "Store" [("rs", toString rs), ("offset", toString offset), ("base", toString base)]
  | .loadIndexed base index left rd =>
    record "LoadIndexed"
      [("base", toString base), ("index", toString index), ("shift", toString left),
       ("rd", toString rd)]
  | .storeIndexed rs base index left =>
    record "StoreIndexed"
      [("rs", toString rs), ("base", toString base), ("index", toString index),
       ("shift", toString left)]
  | .loadSymbol symbol offset rd =>
    record "LoadSymbol"
      [("symbol", quoted symbol), ("offset", toString offset), ("rd", toString rd)]
  | .storeSymbol rs symbol offset =>
    record "StoreSymbol"
      [("rs", toString rs), ("symbol", quoted symbol), ("offset", toString offset)]
  | .floatLoad offset base fd =>
    record "FloatLoad"
      [("offset", toString offset), ("base", toString base), ("fd", toString fd)]
  | .floatStore fs offset base =>
    record "FloatStore"
      [("fs", toString fs), ("offset", toString offset), ("base", toString base)]
  | .floatArith fm fn fd =>
    record "FloatArith"
      [("fm", toString fm), ("fn_", optional toString fn), ("fd", toString fd)]
  | .countLeadingZeros rm rd =>
    record "CountLeadingZeros" [("rm", toString rm), ("rd", toString rd)]
  | .tlsOffset symbol rd => record "TlsOffset" [("symbol", quoted symbol), ("rd", toString rd)]

/-- A whole instruction. Its label is not shown. -/
def Instruction.text (i : Instruction) : String :=
  i.op.name ++ (if i.condition = .al then "" else "." ++ i.condition.name)
    ++ (if i.suffixes.isNone then "" else " " ++ i.suffixes.text) ++ " " ++ i.form.text

end ArmLink.Arm
