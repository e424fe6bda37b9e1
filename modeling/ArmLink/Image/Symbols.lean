import ArmLink.Elf.Header
import ArmLink.Elf.StringTable
import ArmLink.Layout
import ArmLink.SymbolTable.Containment

/-!
# The symbol table of the output

Every reachable symbol that has a place is listed, symbols of one file only before the others.
Tables that the linker makes are not listed, and symbols that are defined elsewhere only if a host
linker will look for them.
-/

namespace ArmLink.Image

structure Listed where
  symbol : SymbolId
  entry : Elf.SymbolEntry
  deriving DecidableEq, Repr

/-- The value of a symbol and the index of its section, if it is listed. For a host linker the value
is counted from the start of the section, in 64 bits. -/
def placeOf? (t : SymbolTable) (l : Layout) (external : Bool) (id : SymbolId) :
    Option (Nat × Nat) :=
  let s := t.get id
  match s.kind with
  | .codeTable | .readOnlyTable | .writableTable => none
  | .dynamicImport | .hostObject =>
    if external then some (0, Elf.SymbolEntry.undefinedIndex) else none
  | .constant => some (s.value.getD 0, Elf.SymbolEntry.absoluteIndex)
  | kind =>
    if kind = .undefined ∧ !s.special then none
    else
      match s.value, (t.get (t.outermost id).1).sectionId with
      | some value, some sectionId =>
        let holder := l.getSection sectionId
        some (if external ∧ kind ≠ .tlsBss then Word64.minus value holder.address
          else value,
          holder.elfIndex)
      | _, _ => none

/-- The ELF type of symbols of a kind. -/
def typeOf : SymbolKind → Nat
  | .text => Elf.SymbolEntry.func
  | .tlsBss => Elf.SymbolEntry.tls
  | .dynamicImport | .hostObject => Elf.SymbolEntry.noType
  | _ => Elf.SymbolEntry.object

/-- The entry of a symbol, if it is listed, and the names with its name added. -/
def entryOf (t : SymbolTable) (l : Layout) (external : Bool) (names : Elf.StringTable)
    (id : SymbolId) : Option Listed × Elf.StringTable :=
  let s := t.get id
  match if s.reachable then placeOf? t l external id else none with
  | none => (none, names)
  | some (value, sectionIndex) =>
    let (name, names) := names.addString s.name
    (some ⟨id, { name, value, size := s.size, isGlobal := !s.isLocal, type := typeOf s.kind,
                 sectionIndex }⟩, names)

/-- The entries of symbols, in their order, and the names with theirs added. -/
def entries (t : SymbolTable) (l : Layout) (external : Bool) :
    List SymbolId → Elf.StringTable → List Listed × Elf.StringTable
  | [], names => ([], names)
  | id :: rest, names =>
    let (first, names) := entryOf t l external names id
    let (others, names) := entries t l external rest names
    (first.toList ++ others, names)

/-- The entries of the symbol table after the empty one, and their names. -/
def listed (t : SymbolTable) (l : Layout) (external : Bool) : List Listed × Elf.StringTable :=
  let (all, names) := entries t l external t.ids .empty
  (all.filter (!·.entry.isGlobal) ++ all.filter (·.entry.isGlobal), names)

end ArmLink.Image
