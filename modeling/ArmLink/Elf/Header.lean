import ArmLink.Bytes

/-!
# Headers and table entries of 32-bit ELF files

Each is a sequence of little-endian fields of fixed width. A value that is too large for its field
loses its high bits.

* `FileHeader.length_bytes`, `ProgramHeader.length_bytes`, … — each takes up its fixed size.
-/

namespace ArmLink.Elf

open Bytes (ofNat)

namespace FileType

def relocatable : Nat := 1

def executable : Nat := 2

def shared : Nat := 3

end FileType

structure FileHeader where
  type : Nat
  machine : Nat
  flags : Nat
  entry : Nat
  sectionHeaders : Nat
  programHeaderCount : Nat
  sectionHeaderCount : Nat
  namesIndex : Nat
  deriving DecidableEq, Repr

structure ProgramHeader where
  type : Nat
  flags : Nat
  offset : Nat
  address : Nat
  fileSize : Nat
  memorySize : Nat
  alignment : Nat
  deriving DecidableEq, Repr

structure SectionHeader where
  name : Nat := 0
  type : Nat := 0
  flags : Nat := 0
  address : Nat := 0
  offset : Nat := 0
  size : Nat := 0
  link : Nat := 0
  /-- another number whose meaning depends on the type -/
  info : Nat := 0
  alignment : Nat := 0
  entrySize : Nat := 0
  deriving DecidableEq, Repr, Inhabited

structure SymbolEntry where
  name : Nat
  /-- the address, or the offset in its section -/
  value : Nat
  size : Nat
  isGlobal : Bool
  type : Nat
  sectionIndex : Nat
  deriving DecidableEq, Repr

structure RelocationEntry where
  offset : Nat
  /-- the symbol and the type of the relocation -/
  info : Word
  deriving DecidableEq, Repr

namespace SymbolEntry

/-- The type of a symbol of which nothing is known. -/
def noType : Nat := 0

def object : Nat := 1

def func : Nat := 2

def tls : Nat := 6

/-- The section index of a symbol that is defined elsewhere. -/
def undefinedIndex : Nat := 0

/-- The section index of a symbol that lies in no section. -/
def absoluteIndex : Nat := 0xfff1

def byteSize : Nat := 16

/-- Where an entry holds the visibility of its symbol, which is always the default. -/
def visibilityOffset : Nat := 13

/-- Binding and type in one byte. -/
def info (e : SymbolEntry) : Nat := (if e.isGlobal then 0x10 else 0) + e.type

def bytes (e : SymbolEntry) : Bytes :=
  ofNat 4 e.name ++ ofNat 4 e.value ++ ofNat 4 e.size ++ ofNat 1 e.info ++ ofNat 1 0
    ++ ofNat 2 e.sectionIndex

@[simp] theorem length_bytes (e : SymbolEntry) : e.bytes.length = byteSize := by
  simp [bytes, byteSize]

end SymbolEntry

namespace RelocationEntry

def byteSize : Nat := 8

def bytes (e : RelocationEntry) : Bytes := ofNat 4 e.offset ++ Bytes.ofWord e.info

@[simp] theorem length_bytes (e : RelocationEntry) : e.bytes.length = byteSize := by
  simp [bytes, byteSize]

end RelocationEntry

namespace ProgramHeader

def byteSize : Nat := 32

/-- The header as it stands in the file. The physical address is always the virtual one. -/
def bytes (h : ProgramHeader) : Bytes :=
  ofNat 4 h.type ++ ofNat 4 h.offset ++ ofNat 4 h.address ++ ofNat 4 h.address
    ++ ofNat 4 h.fileSize ++ ofNat 4 h.memorySize ++ ofNat 4 h.flags ++ ofNat 4 h.alignment

@[simp] theorem length_bytes (h : ProgramHeader) : h.bytes.length = byteSize := by
  simp [bytes, byteSize]

end ProgramHeader

namespace SectionHeader

def byteSize : Nat := 40

/-- The number of section headers from which on indices are reserved. -/
def maxCount : Nat := 0xff00

def bytes (h : SectionHeader) : Bytes :=
  ofNat 4 h.name ++ ofNat 4 h.type ++ ofNat 4 h.flags ++ ofNat 4 h.address ++ ofNat 4 h.offset
    ++ ofNat 4 h.size ++ ofNat 4 h.link ++ ofNat 4 h.info ++ ofNat 4 h.alignment
    ++ ofNat 4 h.entrySize

@[simp] theorem length_bytes (h : SectionHeader) : h.bytes.length = byteSize := by
  simp [bytes, byteSize]

end SectionHeader

namespace FileHeader

def byteSize : Nat := 52

/-- What every file starts with: the magic number, 32 bits, little-endian, version 1. -/
def identification : Bytes := [0x7f, 0x45, 0x4c, 0x46, 1, 1, 1] ++ Bytes.zeros 9

/-- The header as it stands in the file. The program headers follow it at once. -/
def bytes (h : FileHeader) : Bytes :=
  let hasSegments := h.programHeaderCount ≠ 0
  identification ++ ofNat 2 h.type ++ ofNat 2 h.machine ++ ofNat 4 1 ++ ofNat 4 h.entry
    ++ ofNat 4 (if hasSegments then byteSize else 0) ++ ofNat 4 h.sectionHeaders
    ++ ofNat 4 h.flags ++ ofNat 2 byteSize
    ++ ofNat 2 (if hasSegments then ProgramHeader.byteSize else 0)
    ++ ofNat 2 h.programHeaderCount ++ ofNat 2 SectionHeader.byteSize
    ++ ofNat 2 h.sectionHeaderCount ++ ofNat 2 h.namesIndex

@[simp] theorem length_bytes (h : FileHeader) : h.bytes.length = byteSize := by
  simp [bytes, byteSize, identification]

end FileHeader

end ArmLink.Elf
