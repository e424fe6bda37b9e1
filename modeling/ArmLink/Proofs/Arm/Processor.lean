import ArmLink.Arm.Instruction
import ArmLink.Relocation
import Mathlib.Algebra.Group.Nat.Defs
import Mathlib.Logic.Function.Basic

/-!
# A processor

What encoded instructions do when they are executed: the part of the A32 instruction set that
computes with words, moves numbers between registers and memory, and branches. Everything else
decodes to nothing, and a processor that meets it is stuck.

Memory is flat: there are bytes at all addresses, and numbers may stand at any of them. Writing the
program counter is a jump to what is written, whichever instruction does it.
-/

namespace ArmLink.Arm

structure Flags where
  negative : Bool
  zero : Bool
  /-- there was a carry, or no borrow -/
  carry : Bool
  /-- the result did not fit as a signed number -/
  overflow : Bool
  deriving DecidableEq, Repr

/-- The carry tells whether the sum is too large for an unsigned number, and the overflow whether it
is no signed number. -/
def Flags.ofSum (a b : Word) (carry : Bool) : Flags :=
  let sum := a + b + BitVec.ofNat 32 carry.toNat
  ⟨sum.msb, sum = 0, 2 ^ 32 ≤ a.toNat + b.toNat + carry.toNat,
    sum.toInt ≠ a.toInt + b.toInt + carry.toNat⟩

namespace Condition

def holds (c : Condition) (f : Flags) : Bool :=
  match c with
  | eq => f.zero
  | ne => !f.zero
  | cs => f.carry
  | cc => !f.carry
  | mi => f.negative
  | pl => !f.negative
  | vs => f.overflow
  | vc => !f.overflow
  | hi => f.carry && !f.zero
  | ls => !f.carry || f.zero
  | ge => f.negative == f.overflow
  | lt => f.negative != f.overflow
  | gt => !f.zero && f.negative == f.overflow
  | le => f.zero || f.negative != f.overflow
  | al => true

/-- The condition with a code. The last of the sixteen codes is no condition. -/
def ofCode? (code : BitVec 4) : Option Condition :=
  [eq, ne, cs, cc, mi, pl, vs, vc, hi, ls, ge, lt, gt, le, al][code.toNat]?

end Condition

/-! ## Operations on words -/

inductive Operation where
  | and | eor | sub | rsb | add | adc | sbc | rsc | tst | teq | cmp | cmn | orr | mov | bic | mvn
  deriving DecidableEq, Repr

namespace Operation

def ofCode (code : BitVec 4) : Operation :=
  [and, eor, sub, rsb, add, adc, sbc, rsc, tst, teq, cmp, cmn, orr, mov, bic, mvn].getD code.toNat
    and

/-- A comparison sets the flags and has no other result. -/
def isComparison : Operation → Bool
  | tst | teq | cmp | cmn => true
  | _ => false

def value (op : Operation) (x y : Word) (carry : Bool) : Word :=
  match op with
  | and | tst => x &&& y
  | eor | teq => x ^^^ y
  | orr => x ||| y
  | mov => y
  | bic => x &&& ~~~ y
  | mvn => ~~~ y
  | sub | cmp => x - y
  | rsb => y - x
  | add | cmn => x + y
  | adc => x + y + BitVec.ofNat 32 carry.toNat
  | sbc => x - y - BitVec.ofNat 32 (!carry).toNat
  | rsc => y - x - BitVec.ofNat 32 (!carry).toNat

/-- What an arithmetic operation adds, with the carry that goes into the sum: to subtract is to add
the complement and one. -/
def addends? (op : Operation) (x y : Word) (carry : Bool) : Option (Word × Word × Bool) :=
  match op with
  | sub | cmp => some (x, ~~~ y, true)
  | rsb => some (~~~ x, y, true)
  | add | cmn => some (x, y, false)
  | adc => some (x, y, carry)
  | sbc => some (x, ~~~ y, carry)
  | rsc => some (~~~ x, y, carry)
  | _ => none

theorem value_of_addends? {op : Operation} {x y a b : Word} {carry c : Bool}
    (h : op.addends? x y carry = some (a, b, c)) :
    op.value x y carry = a + b + BitVec.ofNat 32 c.toNat := by
  cases op <;> cases h <;> cases carry <;>
    simp only [value, Bool.toNat_true, Bool.toNat_false, Bool.not_true, Bool.not_false] <;>
    bv_omega

/-- The flags that an operation sets: an arithmetic operation those of its sum. Any other operation
takes the carry from how its second operand was made, and keeps the overflow. -/
def flags (op : Operation) (x y : Word) (operandCarry : Bool) (f : Flags) : Flags :=
  match op.addends? x y f.carry with
  | some (a, b, c) => .ofSum a b c
  | none =>
    let result := op.value x y f.carry
    ⟨result.msb, result = 0, operandCarry, f.overflow⟩

theorem flags_of_value (op : Operation) (x y : Word) (operandCarry : Bool) (f : Flags) :
    (op.flags x y operandCarry f).negative = (op.value x y f.carry).msb ∧
      (op.flags x y operandCarry f).zero = decide (op.value x y f.carry = 0) := by
  unfold flags
  split
  · rename_i hsum
    rw [value_of_addends? hsum]
    exact ⟨rfl, rfl⟩
  · exact ⟨rfl, rfl⟩

end Operation

/-- A shifted word, with the last bit that was shifted out. By zero bits, a shift to the left does
nothing, shifts to the right are by 32 bits, and a rotation is by one bit through the carry. -/
def Shift.apply (shift : Shift) (amount : Nat) (w : Word) (carry : Bool) : Word × Bool :=
  match shift with
  | .lsl => if amount = 0 then (w, carry) else (w <<< amount, w.getLsbD (32 - amount))
  | .lsr => if amount = 0 then (0, w.msb) else (w >>> amount, w.getLsbD (amount - 1))
  | .asr =>
    if amount = 0 then (w.sshiftRight 32, w.msb)
    else (w.sshiftRight amount, w.getLsbD (amount - 1))
  | .ror =>
    if amount = 0 then ((w >>> 1) ||| (BitVec.ofNat 32 carry.toNat <<< 31), w.getLsbD 0)
    else (w.rotateRight amount, w.getLsbD (amount - 1))

/-! ## The state -/

/-- The bytes at all addresses. -/
structure Memory where
  byte : Word → BitVec 8

namespace Memory

/-- The two bytes from an address on, as a number. -/
def half (m : Memory) (a : Word) : BitVec 16 := m.byte (a + 1) ++ m.byte a

/-- The word at an address. -/
def word (m : Memory) (a : Word) : Word := m.half (a + 2) ++ m.half a

/-- The eight bytes from an address on, as a number. -/
def double (m : Memory) (a : Word) : Word64 := m.word (a + 4) ++ m.word a

/-- The memory after the low `n` bytes of a number were stored at an address. -/
def store (m : Memory) (a : Word) (n : Nat) (number : Word64) : Memory where
  byte b := if (b - a).toNat < n then number.extractLsb' (8 * (b - a).toNat) 8 else m.byte b

/-- The words stand one after the other from an address on. -/
def Holds (m : Memory) : Word → List Word → Prop
  | _, [] => True
  | a, w :: rest => m.word a = w ∧ m.Holds (a + 4) rest

end Memory

structure Cpu where
  /-- the address of the next instruction -/
  pc : Word
  /-- the registers other than the program counter -/
  registers : Register → Word
  flags : Flags
  floats : Register → Word64
  memory : Memory

/-- What is fetched, loaded and stored. -/
inductive Event where
  | fetch (address : Word)
  | load (address : Word) (bytes : Nat)
  | store (address : Word) (bytes : Nat)
  deriving DecidableEq, Repr

/-- What a number in memory is to a register. -/
inductive Format where
  | byte | signedByte | half | signedHalf | word | single | double
  deriving DecidableEq, Repr

def Format.size : Format → Nat
  | byte | signedByte => 1
  | half | signedHalf => 2
  | word | single => 4
  | double => 8

namespace Cpu

/-- What an instruction reads in a register. The program counter is two instructions ahead. -/
def read (s : Cpu) (r : Register) : Word := if r = .pc then s.pc + 8 else s.registers r

/-- The state after a register was written. To write the program counter is to jump. -/
def write (s : Cpu) (r : Register) (w : Word) : Cpu :=
  if r = .pc then { s with pc := w } else { s with registers := Function.update s.registers r w }

def writeFloat (s : Cpu) (r : Register) (w : Word64) : Cpu :=
  { s with floats := Function.update s.floats r w }

def goto (s : Cpu) (address : Word) : Cpu := { s with pc := address }

/-- The state after a register was loaded. A number of single precision is the low half of a
floating point register. -/
def load (s : Cpu) (f : Format) (r : Register) (a : Word) : Cpu :=
  match f with
  | .byte => s.write r ((s.memory.byte a).setWidth 32)
  | .signedByte => s.write r ((s.memory.byte a).signExtend 32)
  | .half => s.write r ((s.memory.half a).setWidth 32)
  | .signedHalf => s.write r ((s.memory.half a).signExtend 32)
  | .word => s.write r (s.memory.word a)
  | .single => s.writeFloat r ((s.floats r).extractLsb' 32 32 ++ s.memory.word a)
  | .double => s.writeFloat r (s.memory.double a)

/-- The number of which a store takes the low bytes. -/
def stored (s : Cpu) (f : Format) (r : Register) : Word64 :=
  match f with
  | .single | .double => s.floats r
  | _ => (s.read r).setWidth 64

end Cpu

/-! ## Actions -/

inductive Operand where
  /-- a byte, rotated to the right by twice the rotation -/
  | immediate (byte : Word) (rotation : Nat)
  /-- a register, shifted by a constant -/
  | shifted (rm : Register) (shift : Shift) (amount : Nat)
  deriving DecidableEq, Repr

/-- How far from its base register an access is. -/
inductive Offset where
  | constant (bytes : Word)
  /-- a register, shifted to the left -/
  | register (rm : Register) (amount : Nat)
  deriving DecidableEq, Repr

/-- What a word asks the processor to do. -/
inductive Action where
  /-- an operation with a register and another operand -/
  | compute (op : Operation) (setFlags : Bool) (rn rd : Register) (operand : Operand)
  /-- a load or a store, above or below the base register -/
  | transfer (load : Bool) (format : Format) (up : Bool) (rn rt : Register) (offset : Offset)
  /-- a branch by a number of bytes, which may leave a return address -/
  | branch (link : Bool) (distance : Int)
  deriving DecidableEq, Repr

namespace Cpu

def operand (s : Cpu) : Operand → Word × Bool
  | .immediate byte rotation =>
    let w := byte.rotateRight (2 * rotation)
    (w, if rotation = 0 then s.flags.carry else w.msb)
  | .shifted rm shift amount => shift.apply amount (s.read rm) s.flags.carry

def address (s : Cpu) (up : Bool) (rn : Register) (offset : Offset) : Word :=
  let distance : Word :=
    match offset with
    | .constant bytes => bytes
    | .register rm amount => s.read rm <<< amount
  if up then s.read rn + distance else s.read rn - distance

def compute (s : Cpu) (op : Operation) (setFlags : Bool) (rd : Register) (x y : Word)
    (operandCarry : Bool) : Cpu :=
  let flags := if setFlags then op.flags x y operandCarry s.flags else s.flags
  let s' := { s with flags }
  if op.isComparison then s' else s'.write rd (op.value x y s.flags.carry)

/-- The state after an action, and what was loaded and stored. -/
def execute (s : Cpu) (action : Action) : Cpu × List Event :=
  let next := s.goto (s.pc + 4)
  match action with
  | .compute op setFlags rn rd operand =>
    let (y, carry) := s.operand operand
    (next.compute op setFlags rd (s.read rn) y carry, [])
  | .transfer load format up rn rt offset =>
    let a := s.address up rn offset
    if load then (next.load format rt a, [.load a format.size])
    else ({ next with memory := s.memory.store a format.size (s.stored format rt) },
      [.store a format.size])
  | .branch link distance =>
    let linked := if link then next.write 14 (s.pc + 4) else next
    (linked.goto (s.pc + 8 + .ofInt 32 distance), [])

end Cpu

/-! ## Decoding -/

namespace Action

def shiftOf (code : BitVec 2) : Shift := [Shift.lsl, .lsr, .asr, .ror].getD code.toNat .lsl

section Pieces

variable (control : BitVec 8) (rn rd : BitVec 4)

/-- An operation. A comparison that sets no flags is another instruction, and an operation that sets
the flags and writes the program counter returns from an exception. -/
def compute? (operand : Operand) : Option Action :=
  let op := Operation.ofCode (control.extractLsb' 1 4)
  let setFlags := control.getLsbD 0
  if op.isComparison && !setFlags then none
  else if !op.isComparison && setFlags && rd.toNat = Register.pc then none
  else some (.compute op setFlags rn.toNat rd.toNat operand)

/-- A load or store. Only accesses relative to a base register that stays as it is are decoded. -/
def transfer? (load store : Option Format) (offset : Offset) : Option Action :=
  if control.getLsbD 4 && !control.getLsbD 1 then
    (if control.getLsbD 0 then load else store).map
      (.transfer (control.getLsbD 0) · (control.getLsbD 3) rn.toNat rd.toNat offset)
  else none

/-- A load or store of a word or a byte. -/
def wordTransfer? (offset : Offset) : Option Action :=
  let format : Format := if control.getLsbD 2 then .byte else .word
  transfer? control rn rd (some format) (some format) offset

variable (low : BitVec 12)

/-- A load or store of a halfword or a signed byte, with the offset cut in two or in a register.
The two bits that tell them apart mean something else in stores. -/
def halfTransfer? : Option Action :=
  let kind := low.extractLsb' 5 2
  let load : Option Format :=
    if kind = 1 then some .half else if kind = 2 then some .signedByte
    else if kind = 3 then some .signedHalf else none
  let store : Option Format := if kind = 1 then some .half else none
  transfer? control rn rd load store
    (if control.getLsbD 2 then .constant ((low.extractLsb' 8 4 ++ low.extractLsb' 0 4).setWidth 32)
    else .register (low.extractLsb' 0 4).toNat 0)

/-- A load or store of a floating point register. A further bit of the register number, which tells
the odd numbers of single precision or the upper numbers of double precision, is not decoded. -/
def floatTransfer? : Option Action :=
  let format : Option Format :=
    if low.extractLsb' 8 4 = 0xa then some .single
    else if low.extractLsb' 8 4 = 0xb then some .double else none
  if control.getLsbD 2 then none
  else transfer? control rn rd format format (.constant ((low.extractLsb' 0 8).setWidth 32 <<< 2))

/-- What the pieces of a word stand for: its control byte, two registers and its low bits. -/
def ofPieces : Option Action :=
  let kind := control.extractLsb' 5 3
  let rm := (low.extractLsb' 0 4).toNat
  if kind = 0 then
    if low.getLsbD 4 then if low.getLsbD 7 then halfTransfer? control rn rd low else none
    else compute? control rn rd
      (.shifted rm (shiftOf (low.extractLsb' 5 2)) (low.extractLsb' 7 5).toNat)
  else if kind = 1 then
    compute? control rn rd
      (.immediate ((low.extractLsb' 0 8).setWidth 32) (low.extractLsb' 8 4).toNat)
  else if kind = 2 then wordTransfer? control rn rd (.constant (low.setWidth 32))
  else if kind = 3 then
    if low.extractLsb' 4 3 = 0 then
      wordTransfer? control rn rd (.register rm (low.extractLsb' 7 5).toNat)
    else none
  else if kind = 5 then
    some (.branch (control.getLsbD 4) ((control.extractLsb' 0 4 ++ rn ++ rd ++ low).toInt * 4))
  else if kind = 6 then floatTransfer? control rn rd low
  else none

end Pieces

end Action

/-- What a word stands for, its condition aside. -/
def decode? (w : Word) : Option Action :=
  Action.ofPieces (w.extractLsb' 20 8) (w.extractLsb' 16 4) (w.extractLsb' 12 4)
    (w.extractLsb' 0 12)

def condition? (w : Word) : Option Condition := Condition.ofCode? (w.extractLsb' 28 4)

namespace Cpu

/-- The word at the program counter is executed if its condition holds, and passed over otherwise.
-/
def step (s : Cpu) : Option (Cpu × List Event) := do
  let w := s.memory.word s.pc
  let cond ← condition? w
  if cond.holds s.flags then
    let action ← decode? w
    let (s', events) := s.execute action
    return (s', .fetch s.pc :: events)
  else return (s.goto (s.pc + 4), [.fetch s.pc])

/-- From one state to another, one step after the other. -/
inductive Runs : Cpu → List Event → Cpu → Prop
  | refl (s : Cpu) : Runs s [] s
  | step {s s' s'' : Cpu} {events rest : List Event} (h : s.step = some (s', events))
      (hrest : Runs s' rest s'') : Runs s (events ++ rest) s''

end Cpu

end ArmLink.Arm
