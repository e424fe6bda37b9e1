import ArmLink.Text.Number

/-!
# ELF relocation types of the ARM architecture

The numbers and names that the ARM ABI gives to relocations. Object files may use any of these
numbers; the dynamic loader and the host linker see some of them in the output.
-/

namespace ArmLink.Elf.RelocationType

/-- A word that holds an address. -/
def abs32 : Nat := 2

/-- A word that holds a distance. -/
def rel32 : Nat := 3

/-- A branch of an old object file. -/
def pc24 : Nat := 1

/-- The dynamic loader stores the address of a symbol. -/
def globDat : Nat := 21

/-- The dynamic loader stores the address of a function that is called through a stub. -/
def jumpSlot : Nat := 22

/-- The dynamic loader adds the address at which the file was loaded. -/
def relative : Nat := 23

/-- The distance of a symbol from the global offset table. -/
def gotOff32 : Nat := 24

/-- The distance of the global offset table from the place. -/
def basePrel : Nat := 25

/-- The offset of a symbol's slot in the global offset table. -/
def gotBrel : Nat := 26

/-- A branch that may pass through a stub. -/
def plt32 : Nat := 27

/-- A branch with link. -/
def call : Nat := 28

/-- Any other branch. -/
def jump24 : Nat := 29

/-- A mark on branches to registers. -/
def v4bx : Nat := 40

/-- The distance of a symbol's slot in the global offset table from the place. -/
def gotPrel : Nat := 96

/-- The offset of a thread-local symbol from the thread pointer. -/
def tlsLe32 : Nat := 108

def names : List (Nat × String) :=
  [(0, "R_ARM_NONE"), (pc24, "R_ARM_PC24"), (abs32, "R_ARM_ABS32"), (rel32, "R_ARM_REL32"),
   (5, "R_ARM_ABS16"), (8, "R_ARM_ABS8"), (10, "R_ARM_THM_CALL"), (20, "R_ARM_COPY"),
   (globDat, "R_ARM_GLOB_DAT"), (jumpSlot, "R_ARM_JUMP_SLOT"), (relative, "R_ARM_RELATIVE"),
   (gotOff32, "R_ARM_GOTOFF32"), (basePrel, "R_ARM_BASE_PREL"), (gotBrel, "R_ARM_GOT_BREL"),
   (plt32, "R_ARM_PLT32"), (call, "R_ARM_CALL"), (jump24, "R_ARM_JUMP24"), (v4bx, "R_ARM_V4BX"),
   (gotPrel, "R_ARM_GOT_PREL"), (107, "R_ARM_TLS_IE32"), (tlsLe32, "R_ARM_TLS_LE32")]

/-- The name of a relocation type, or its number if it has none. -/
def name (type : Nat) : String :=
  match names.lookup type with
  | some text => text
  | none => "Unknown arm relocation type " ++ Text.hex type

/-- The information word of a relocation entry: the symbol's index, and the type in the low byte. -/
def info (symbol type : Word) : Word := (symbol <<< 8) ||| (type &&& 0xff)

end ArmLink.Elf.RelocationType
