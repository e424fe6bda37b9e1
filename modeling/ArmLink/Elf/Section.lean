/-!
# Section types, flags and names

The numbers that section headers use, and the names of the sections that the linker makes.
-/

namespace ArmLink.Elf

namespace SectionType

def progBits : Nat := 1

def symTab : Nat := 2

def strTab : Nat := 3

def hash : Nat := 5

/-- The table that the dynamic loader starts from. -/
def dynamic : Nat := 6

def note : Nat := 7

/-- Zeros that are not stored in the file. -/
def noBits : Nat := 8

def rel : Nat := 9

def dynSym : Nat := 11

end SectionType

namespace SectionFlags

def write : Nat := 0x1

def alloc : Nat := 0x2

def execInstr : Nat := 0x4

/-- The information field holds the index of a section. -/
def infoLink : Nat := 0x40

def tls : Nat := 0x400

end SectionFlags

namespace SectionName

def text : String := ".text"

def rodata : String := ".rodata"

/-- Links to type descriptions. -/
def typeLink : String := ".typelink"

/-- The symbol table of the running program. -/
def programSymbols : String := ".gosymtab"

/-- The line table of the running program. -/
def programLines : String := ".gopclntab"

def noPtrData : String := ".noptrdata"

def data : String := ".data"

def bss : String := ".bss"

def noPtrBss : String := ".noptrbss"

def tbss : String := ".tbss"

def interp : String := ".interp"

def buildId : String := ".note.gnu.build-id"

def dynSym : String := ".dynsym"

def dynStr : String := ".dynstr"

def hash : String := ".hash"

/-- Relocations that the dynamic loader applies at once. -/
def rel : String := ".rel"

/-- Relocations that the dynamic loader may apply at the first call. -/
def relPlt : String := ".rel.plt"

def plt : String := ".plt"

def got : String := ".got"

def gotPlt : String := ".got.plt"

def dynamic : String := ".dynamic"

def shStrTab : String := ".shstrtab"

def symTab : String := ".symtab"

def strTab : String := ".strtab"

end SectionName

end ArmLink.Elf
