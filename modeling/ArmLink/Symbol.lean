import ArmLink.Alignment
import ArmLink.Relocation
import ArmLink.Symbol.Kind

/-!
# Symbols

A symbol is what the linker moves around: some bytes with a name. A symbol may lie within another
one; it then stands for a part of the other's bytes and has none of its own.
-/

namespace ArmLink

/-- The position of a symbol in its table. -/
abbrev SymbolId := Nat

/-- The position of a section in a layout. -/
abbrev SectionId := Nat

structure Container where
  symbol : SymbolId
  offset : Nat
  deriving DecidableEq, Repr

structure Symbol where
  name : String
  /-- zero for symbols that every file sees; symbols of one file only carry a number of its own -/
  version : Nat
  kind : SymbolKind := .undefined
  special : Bool := false
  exported : Bool := false
  /-- the address; of a thread-local symbol the offset in its block -/
  value : Option Nat := none
  size : Nat := 0
  alignment : Option Alignment := none
  sectionId : Option SectionId := none
  /-- the bytes at its start; the rest are zeros -/
  data : Bytes := []
  relocations : List (Relocation SymbolId) := []
  /-- the index in the dynamic symbol table -/
  dynamicIndex : Option Nat := none
  /-- the offset of its slot in the global offset table -/
  gotOffset : Option Nat := none
  /-- the offset of its stub -/
  pltOffset : Option Nat := none
  /-- the offset of the slot of its stub -/
  gotPltOffset : Option Nat := none
  /-- the name in its library, if it is another one -/
  importName : Option String := none
  importLibrary : Option String := none
  reachable : Bool := false
  outer : Option Container := none
  /-- the latest of the symbols directly within it -/
  sub : Option SymbolId := none
  /-- the next older symbol directly within the same container -/
  nextSub : Option SymbolId := none
  deriving DecidableEq, Repr, Inhabited

namespace Symbol

/-- Whether something defines the symbol. -/
def isDefined (s : Symbol) : Bool := s.kind ≠ .undefined || s.special

/-- Whether only one file sees the symbol. -/
def isLocal (s : Symbol) : Bool := s.version ≠ 0

/-- Whether a shared library provides the symbol. -/
def isImport (s : Symbol) : Bool := s.kind = .dynamicImport

/-- The name that the dynamic loader knows the symbol by. -/
def dynamicName (s : Symbol) : String := s.importName.getD s.name

/-- How messages name a symbol. -/
def text (s : Symbol) : String :=
  "`" ++ s.name ++ "`" ++ if s.version = 0 then "" else s!"<{s.version}>"

/-- The symbol with bytes put at the end of its data, and its size set to that of its data. -/
def append (s : Symbol) (bytes : Bytes) : Symbol :=
  { s with data := s.data ++ bytes, size := s.data.length + bytes.length }

/-- `append` for a word. -/
def appendWord (s : Symbol) (w : Word) : Symbol := s.append (Bytes.ofWord w)

/-- `append` for a word that a relocation fills in. -/
def appendPatched (s : Symbol) (kind : Relocation.Kind) (target : SymbolId) (addend : Word64) :
    Symbol :=
  let patch := Relocation.pending s.data.length 4 kind (some target) addend
  { s.appendWord 0 with relocations := s.relocations ++ [patch] }

end Symbol

end ArmLink
