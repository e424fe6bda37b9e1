import ArmLink.Arm.Opcode

/-!
# Instructions

An instruction is an opcode, a condition, a set of suffixes and an addressing form. The form is a
closed set; each one carries exactly the operands that its encodings need.
-/

namespace ArmLink.Arm

/-- A register number. Only the numbers below 16 can be encoded. -/
abbrev Register := Nat

namespace Register

/-- The scratch register: constants and offsets that fit no field pass through it. -/
def scratch : Register := 11

def pc : Register := 15

end Register

structure Suffixes where
  setFlags : Bool := false
  /-- the offset is added after the access -/
  postIndex : Bool := false
  /-- the computed address is written back to the base register -/
  writeback : Bool := false
  subtract : Bool := false
  deriving DecidableEq, Repr, Inhabited

namespace Suffixes

def none : Suffixes := {}

def isNone (s : Suffixes) : Bool := s = none

end Suffixes

inductive Shift where
  | lsl
  | lsr
  | asr
  | ror
  deriving DecidableEq, Repr, Inhabited

inductive ShiftAmount where
  | constant (amount : Nat)
  /-- by the low byte of a register -/
  | register (rs : Register)
  deriving DecidableEq, Repr

inductive BranchTarget where
  | label (name : String)
  | symbol (name : String) (offset : Int)
  deriving DecidableEq, Repr

/-- The addressing form of an instruction. -/
inductive Form where
  /-- two registers; `rn` defaults to `rd` -/
  | registers (rm : Register) (rn : Option Register) (rd : Register)
  | immediate (value : Int) (rn : Option Register) (rd : Register)
  | shiftedRegister (rm : Register) (shift : Shift) (amount : ShiftAmount) (rn : Option Register)
      (rd : Register)
  /-- the address at an offset from a register -/
  | addressOf (offset : Int) (base rd : Register)
  | branch (target : BranchTarget)
  | branchRegister (rm : Register)
  | shift (amount : ShiftAmount) (rm rd : Register)
  | softwareInterrupt (value : Nat)
  /-- a data word: a constant, or the address of a symbol plus a constant -/
  | word (value : Int) (symbol : Option String)
  /-- a constant, or the address of a symbol plus a constant, into a register -/
  | loadConstant (value : Int) (symbol : Option String) (rd : Register)
  | extend (rm rd : Register)
  /-- a product of words, added to `ra` if there is one -/
  | multiply (rm rs rd : Register) (ra : Option Register)
  | multiplyLong (rm rs rdHi rdLo : Register)
  | load (offset : Int) (base rd : Register)
  | store (rs : Register) (offset : Int) (base : Register)
  /-- a load at a shifted register offset -/
  | loadIndexed (base index : Register) (shift : Nat) (rd : Register)
  /-- a store at a shifted register offset -/
  | storeIndexed (rs base index : Register) (shift : Nat)
  | loadSymbol (symbol : String) (offset : Int) (rd : Register)
  | storeSymbol (rs : Register) (symbol : String) (offset : Int)
  | floatLoad (offset : Int) (base fd : Register)
  | floatStore (fs : Register) (offset : Int) (base : Register)
  /-- floating point arithmetic; unary operations ignore `fn` -/
  | floatArith (fm : Register) (fn : Option Register) (fd : Register)
  | countLeadingZeros (rm rd : Register)
  /-- the offset of a thread-local symbol from the thread pointer -/
  | tlsOffset (symbol : String) (rd : Register)
  deriving DecidableEq, Repr

structure Instruction where
  op : Opcode
  condition : Condition := .al
  suffixes : Suffixes := {}
  form : Form
  /-- a label that branches of the same function may name -/
  label : Option String := none
  deriving DecidableEq, Repr

end ArmLink.Arm
