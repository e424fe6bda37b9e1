import ArmLink.Elf.Section
import ArmLink.Elf.Segment
import ArmLink.Symbol

/-!
# Layouts

A layout groups the symbols of a link into sections, and the sections into segments, and gives all
of them their addresses.
-/

namespace ArmLink

/-- The bytes at the start of the file that are kept for headers, the path of the dynamic loader and
the build id. The first segment maps them too. -/
def headerSpace : Nat := 3072

/-- Where the file is mapped, if it is not relocatable. -/
def fixedBase : Nat := 0x10000

/-- A section: symbols of one kind, one after the other. -/
structure Section where
  name : String
  segment : Elf.Segment
  type : Nat
  flags : Nat
  entrySize : Nat
  /-- the strictest alignment of its symbols -/
  alignment : Alignment := .byte
  address : Nat := 0
  length : Nat := 0
  /-- its symbols, in the order of their addresses -/
  symbols : List SymbolId
  elfIndex : Nat := 0
  deriving DecidableEq, Repr, Inhabited

structure Extent where
  segment : Elf.Segment
  address : Nat
  length : Nat
  fileOffset : Nat
  /-- the number of its bytes in the file; the rest are zeros -/
  fileLength : Nat
  deriving DecidableEq, Repr, Inhabited

def Extent.stop (e : Extent) : Nat := e.address + e.length

structure Layout where
  /-- the sections, in the order of their headers -/
  sections : List Section
  /-- the mapped segments, in the order of their addresses -/
  extents : List Extent
  /-- the address of the first section; the headers lie before it -/
  textStart : Nat
  deriving DecidableEq, Repr, Inhabited

namespace Layout

def getSection (l : Layout) (id : SectionId) : Section := l.sections.getD id default

/-- The position of the first section with a name. -/
def sectionId? (l : Layout) (name : String) : Option SectionId :=
  l.sections.findIdx? (·.name = name)

def section? (l : Layout) (name : String) : Option Section := l.sections.find? (·.name = name)

def extent? (l : Layout) (segment : Elf.Segment) : Option Extent :=
  l.extents.find? (·.segment = segment)

/-- The thread-local section, if there is one. -/
def tlsSection? (l : Layout) : Option Section := l.sections.find? (·.segment = .tls)

/-- The size of the file up to the end of the mapped segments. -/
def fileSize (l : Layout) : Nat :=
  ((l.extents.map fun e => e.fileOffset + e.fileLength).max?).getD headerSpace

/-- Where the byte at an address is stored in the file, if it is stored at all. -/
def fileOffset? (l : Layout) (address : Nat) : Option Nat :=
  (l.extents.find? fun e => e.address ≤ address && address < e.address + e.fileLength).map
    fun e => address - e.address + e.fileOffset

end Layout

end ArmLink
