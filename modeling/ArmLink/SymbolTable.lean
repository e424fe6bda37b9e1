import ArmLink.Symbol

/-!
# Symbol tables

Symbols are kept in the order in which they were first seen and are referred to by their position.
No two symbols share both name and version. A fresh table holds the sentinels: the symbols that
mark the ends of the sections, which only the linker defines.
-/

namespace ArmLink

structure SymbolTable where
  /-- the symbols, in the order in which they were first seen -/
  symbols : Array Symbol
  deriving DecidableEq, Repr

namespace SymbolTable

def size (t : SymbolTable) : Nat := t.symbols.size

/-- The positions of all symbols, in order. -/
def ids (t : SymbolTable) : List SymbolId := List.range t.size

def get (t : SymbolTable) (id : SymbolId) : Symbol := t.symbols.getD id default

/-- The table with the symbol at a position changed. -/
def modify (t : SymbolTable) (id : SymbolId) (f : Symbol → Symbol) : SymbolTable :=
  ⟨t.symbols.modify id f⟩

/-- The symbol with a name and version, if there is one. -/
def find? (t : SymbolTable) (name : String) (version : Nat) : Option SymbolId :=
  t.symbols.findIdx? fun s => s.version = version && s.name = name

/-- The symbol with a name and version, which is made if there is none. -/
def lookup (t : SymbolTable) (name : String) (version : Nat) : SymbolId × SymbolTable :=
  match t.find? name version with
  | some id => (id, t)
  | none => (t.size, ⟨t.symbols.push { name, version }⟩)

/-- The symbols that mark the start and end of each section, and the end of everything. -/
def sentinels : List String :=
  ["text", "etext", "rodata", "erodata", "typelink", "etypelink", "symtab", "esymtab", "pclntab",
   "epclntab", "noptrdata", "enoptrdata", "data", "edata", "bss", "ebss", "noptrbss", "enoptrbss",
   "end"]

/-- The table of a link that has not seen any file. -/
def initial : SymbolTable :=
  ⟨(sentinels.map fun name =>
    { name, version := 0, special := true, reachable := true : Symbol }).toArray⟩

instance : Inhabited SymbolTable := ⟨initial⟩

/-- The symbols that are kept for shared libraries to see. -/
def exported (t : SymbolTable) : List SymbolId :=
  t.ids.filter fun id => (t.get id).exported && (t.get id).isDefined

/-- Gives a symbol of the linker its kind and value. -/
def defineSpecial (t : SymbolTable) (name : String) (kind : SymbolKind) (value : Nat) :
    SymbolId × SymbolTable :=
  let (id, t) := t.lookup name 0
  (id, t.modify id fun s =>
    { s with kind, value := some value, size := 0, special := true, reachable := true })

end SymbolTable

end ArmLink
