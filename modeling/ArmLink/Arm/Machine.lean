import ArmLink.Arm.Branch
import ArmLink.Relocation
import ArmLink.Report

/-!
# What the ARM architecture asks of a linker

* `Machine.resolve?` — the values of the relocations whose formula is the architecture's own;
* `Machine.classify` — what a raw ELF relocation of an object file stands for;
* `Machine.hostType` — the ELF relocation that is passed on to a host linker.
-/

namespace ArmLink.Arm.Machine

open Relocation (Kind)

/-- The ELF number of the architecture. -/
def elfMachine : Nat := 40

/-- The ELF flags of files for version 5 of the ABI. -/
def elfFlags : Nat := 0x05000000

/-- The dynamic loader that is asked for unless another one is named. -/
def defaultInterpreter : String := "/lib/ld-linux.so.3"

/-- How far the thread-local data starts behind the thread pointer. -/
def tlsBias : Nat := 8

/-- The instructions at the start of the stubs. A word with the distance to the slots follows. -/
def pltHeader : List Word :=
  [0xe52de004, -- push the link register
   0xe59fe004, -- load the distance to the slots
   0xe08fe00e, -- add the program counter
   0xe5bef008] -- jump through the third reserved slot

/-- The number of slots that are reserved for the dynamic loader. -/
def reservedSlots : Nat := 3

inductive ResolveError where
  | noGot
  | farBranch (displacement : Int)
  deriving DecidableEq, Repr

def ResolveError.message : ResolveError → String
  | noGot => "GOT-relative relocation without a .got"
  | farBranch displacement =>
    "branch displacement " ++ Text.signedHex displacement ++ " is out of range ["
      ++ Text.signedHex Branch.leastReach ++ ", " ++ Text.signedHex Branch.reachEnd ++ ")"

/-- What goes into the value of a relocation. -/
structure Inputs where
  target : Word64
  addend : Word64
  place : Word64
  /-- the address of the global offset table, if there is one -/
  got : Option Word64
  deriving DecidableEq, Repr

/-- The distance from the place to the target plus the addend, as instructions see it. -/
def Inputs.delta (i : Inputs) : Word := (i.target - i.place + i.addend).setWidth 32

/-- A branch sent from its place to its target. The addend is the branch instruction. The distance
is a difference of 64 bits, and wraps around like the sum that is checked. -/
def branch (i : Inputs) : Except ResolveError Word :=
  let insn : Word := i.addend.setWidth 32
  let distance := (i.target - i.place).toInt
  let displacement := (BitVec.ofInt 64 (Branch.displacement insn + distance)).toInt
  if Branch.InReach displacement then .ok (Branch.advance insn (.ofInt 32 (distance / 4)))
  else .error (.farBranch displacement)

/-- **The architecture's own formulas.** `none` for the kinds that are computed alike everywhere.
The three instructions of a stub add the distance to their slot in parts of 8, 8 and 12 bits; the
second and third stand 4 and 8 bytes behind the first. -/
def resolve? (kind : Kind) (i : Inputs) : Except ResolveError (Option Word64) :=
  match kind with
  | .plt0 => .ok (some ((0xe28fc600 + (0xff &&& (i.delta >>> 20)) : Word).setWidth 64))
  | .plt1 => .ok (some ((0xe28cca00 + (0xff &&& ((i.delta + 4) >>> 12)) : Word).setWidth 64))
  | .plt2 => .ok (some ((0xe5bcf000 + (0xfff &&& (i.delta + 8)) : Word).setWidth 64))
  | .gotOffset =>
    match i.got with
    | some got => .ok (some (i.target + i.addend - got))
    | none => .error .noGot
  | .call => do return some ((← branch i).setWidth 64)
  | _ => .ok none

/-- What a raw ELF relocation stands for. -/
inductive Class where
  | call
  /-- the offset of the target's slot in the global offset table -/
  | gotSlotOffset
  /-- the distance to the target's slot in the global offset table -/
  | gotSlotPcRelative
  /-- the distance of the target from the global offset table -/
  | gotRelative
  /-- the distance to the global offset table itself -/
  | gotBasePcRelative
  | pcRelative
  | absolute
  /-- nothing that matters here -/
  | ignored
  deriving DecidableEq, Repr

/-- What a raw ELF relocation type stands for; `none` if it is not supported. -/
def classify? (type : Nat) : Option Class :=
  open Elf.RelocationType in
  if type = plt32 ∨ type = call ∨ type = jump24 ∨ type = pc24 then some .call
  else if type = gotBrel then some .gotSlotOffset
  else if type = gotPrel then some .gotSlotPcRelative
  else if type = gotOff32 then some .gotRelative
  else if type = basePrel then some .gotBasePcRelative
  else if type = rel32 then some .pcRelative
  else if type = abs32 then some .absolute
  else if type = v4bx then some .ignored
  else none

/-- The message about a relocation type that is not supported. -/
def unsupportedType (type : Nat) : String :=
  "unsupported relocation type " ++ Elf.RelocationType.name type

inductive HostError where
  | size (size : Nat) (kind : Kind)
  | kind (kind : Kind)
  deriving DecidableEq, Repr

def HostError.message : HostError → String
  | size n k => s!"unsupported relocation: {n} byte " ++ k.text ++ " for the host linker"
  | kind k => "unsupported relocation: " ++ k.text ++ " cannot be passed to the host linker"

/-- The ELF relocation type that is passed on to a host linker. Of branches only the unconditional
ones with link have a type of their own; `insn` is the branch. -/
def hostType (kind : Kind) (size : Nat) (insn : Word) : Except HostError Nat :=
  if size ≠ 4 then .error (.size size kind)
  else
    match kind with
    | .absolute => .ok Elf.RelocationType.abs32
    | .pcRelative => .ok Elf.RelocationType.rel32
    | .call =>
      if Branch.isLink insn && insn >>> 28 = 0xe then .ok Elf.RelocationType.call
      else .ok Elf.RelocationType.jump24
    | .tls => .ok Elf.RelocationType.tlsLe32
    | _ => .error (.kind kind)

end ArmLink.Arm.Machine
