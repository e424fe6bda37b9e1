import ArmLink.Arm.Encode
import ArmLink.Report

/-!
# Assembly of function bodies

A body is assembled in two passes. Sizes never depend on addresses, so a first pass with every
label pretending to stand where it is used gives each instruction its address, and with it every
label; a second pass encodes for good.

Addresses in a body and offsets of patches have 32 bits. They are numbers without a bound here: all
that is said of bodies is meant of those of less than 2^32 bytes, where no address wraps around.
-/

namespace ArmLink.Arm

inductive AssembleError where
  | duplicateLabel (name : String)
  | noEncoding (instruction : Instruction) (reason : EncodeError)
  /-- an instruction changed its size from one pass to the other -/
  | sizeChanged (instruction : Instruction)
  deriving DecidableEq, Repr

def EncodeError.report (i : Instruction) (reason : EncodeError) : Report :=
  (Report.plain reason.message).within ("Failed to encode `" ++ i.text ++ "`")

def AssembleError.report : AssembleError → Report
  | duplicateLabel name => .plain s!"duplicate label `{name}`"
  | noEncoding instruction reason => reason.report instruction
  | sizeChanged instruction => .plain ("`" ++ instruction.text ++ "` changed size between passes")

/-- The bytes of a function body, and what is still to be patched in them. -/
structure Body where
  bytes : Bytes := []
  /-- the patches, in order -/
  relocations : List (Relocation String) := []
  deriving DecidableEq, Repr

/-- The addresses of the labels seen so far. -/
abbrev Labels := List (String × Nat)

/-- An instruction with its address and its size in bytes. -/
structure Placed where
  instruction : Instruction
  /-- the address of its first word -/
  pc : Nat
  size : Nat
  deriving DecidableEq, Repr

/-- The labels with that of one more instruction. -/
def Labels.add (labels : Labels) (i : Instruction) (pc : Nat) : Except AssembleError Labels :=
  match i.label with
  | none => .ok labels
  | some name =>
    match labels.lookup name with
    | some _ => .error (.duplicateLabel name)
    | none => .ok (labels ++ [(name, pc)])

/-- `encode`, with the instruction in the error. -/
def encodeOrFail (i : Instruction) (pc : Nat) (labels : String → Option Nat) :
    Except AssembleError Code :=
  (encode i pc labels).mapError (.noEncoding i)

/-- The first pass places the instructions from `pc` on and collects their labels. It is meant for
bodies of less than 2^32 bytes. -/
def place : List Instruction → Nat → Labels → Except AssembleError (List Placed × Labels)
  | [], _, labels => .ok ([], labels)
  | i :: rest, pc, labels => do
    let labels ← labels.add i pc
    let size := (← encodeOrFail i pc fun _ => some pc).size
    let (placed, labels) ← place rest (pc + size) labels
    return (⟨i, pc, size⟩ :: placed, labels)

/-- The second pass encodes placed instructions one after the other. -/
def emit (labels : Labels) : List Placed → Except AssembleError Body
  | [] => .ok {}
  | p :: rest => do
    let code ← encodeOrFail p.instruction p.pc fun name => labels.lookup name
    if code.size = p.size then
      let body ← emit labels rest
      let patches := (code.relocation.map (·.shifted p.pc)).toList
      return ⟨code.bytes ++ body.bytes, patches ++ body.relocations⟩
    else .error (.sizeChanged p.instruction)

/-- The body that a list of instructions stands for. -/
def assemble (instructions : List Instruction) : Except AssembleError Body := do
  let (placed, labels) ← place instructions 0 []
  emit labels placed

end ArmLink.Arm
