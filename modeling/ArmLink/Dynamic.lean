import ArmLink.Arm.Machine
import ArmLink.Elf.Section
import ArmLink.SymbolTable

/-!
# Tables for the dynamic loader

The dynamic loader reads a handful of tables: symbols and their names, relocations, the global
offset table, the stubs of imported functions and their slots. Each table is a symbol whose bytes
grow as entries are added, with relocations for whatever depends on addresses, so that it is laid
out like any other symbol.

* `ensureIndex` — a symbol's entry in the dynamic symbol table;
* `ensureStub` — an import's stub, with its slot and the relocation of that slot;
* `ensureSlot` — a symbol's slot in the global offset table.

Each of them gives a symbol at most one entry: asked again, it gives the same answer and changes
nothing.
-/

namespace ArmLink

/-- The tables of the dynamic loader, and what is in them so far. -/
structure DynamicTables where
  dynSym : SymbolId
  dynStr : SymbolId
  hash : SymbolId
  /-- relocations that are applied at once -/
  rel : SymbolId
  /-- relocations of the slots of stubs -/
  relPlt : SymbolId
  plt : SymbolId
  got : SymbolId
  /-- the slots of the stubs -/
  gotPlt : SymbolId
  dynamic : SymbolId
  /-- the offsets of the names that are there already -/
  nameOffsets : List (String × Nat) := [("", 0)]
  /-- the offsets of the names of the libraries that are needed, in the order asked for -/
  needed : List Nat := []
  neededNames : List String := []
  /-- the number of dynamic symbols, the null symbol included -/
  count : Nat := 1
  /-- whether the loader has to patch code -/
  textRel : Bool := false
  deriving DecidableEq, Repr

namespace DynamicTables

/-- All tables, in the order in which they are made. -/
def all (d : DynamicTables) : List SymbolId :=
  [d.dynSym, d.dynStr, d.rel, d.got, d.hash, d.gotPlt, d.plt, d.relPlt, d.dynamic]

/-- The report of a table whose name an input has taken. -/
def reservedName (s : Symbol) : Report :=
  .plain s!"duplicate definition of {s.text}: the name is reserved for the linker"

/-- Makes the symbol of an empty table. -/
def newTable (t : SymbolTable) (name : String) (kind : SymbolKind) (alignment : Alignment) :
    Except (Failure Report SymbolTable) (SymbolId × SymbolTable) :=
  let (id, t) := t.lookup name 0
  if (t.get id).isDefined then .error ⟨reservedName (t.get id), t⟩
  else
    .ok (id, t.modify id fun s =>
      { s with kind, alignment := some alignment, reachable := true })

/-- Gives new tables their first contents: the null symbol, the empty name, the code that calls the
loader, and the slots that are reserved for it. -/
def fill (d : DynamicTables) (t : SymbolTable) : SymbolTable :=
  let t := t.modify d.dynSym (·.append (Bytes.zeros 16))
  let t := t.modify d.dynStr (·.append [0])
  let t := t.modify d.plt fun s =>
    (Arm.Machine.pltHeader.foldl Symbol.appendWord s).appendPatched .pcRelative d.gotPlt 4
  t.modify d.gotPlt (·.append (Bytes.zeros (4 * Arm.Machine.reservedSlots)))

def setup (t : SymbolTable) : Except (Failure Report SymbolTable) (DynamicTables × SymbolTable) :=
  open Elf in do
  let (dynSym, t) ← newTable t SectionName.dynSym .readOnlyTable .word
  let (dynStr, t) ← newTable t SectionName.dynStr .readOnlyTable .byte
  let (rel, t) ← newTable t SectionName.rel .readOnlyTable .word
  let (got, t) ← newTable t SectionName.got .writableTable .word
  let (hash, t) ← newTable t SectionName.hash .readOnlyTable .word
  let (gotPlt, t) ← newTable t SectionName.gotPlt .writableTable .word
  let (plt, t) ← newTable t SectionName.plt .codeTable .word
  let (relPlt, t) ← newTable t SectionName.relPlt .readOnlyTable .word
  let (dynamic, t) ← newTable t SectionName.dynamic .writableTable .word
  let d : DynamicTables := { dynSym, dynStr, hash, rel, relPlt, plt, got, gotPlt, dynamic }
  return (d, d.fill t)

/-- The offset of a name, which is added unless it is there. -/
def addName (d : DynamicTables) (t : SymbolTable) (name : String) :
    Nat × DynamicTables × SymbolTable :=
  match d.nameOffsets.lookup name with
  | some offset => (offset, d, t)
  | none =>
    let offset := (t.get d.dynStr).data.length
    let t := t.modify d.dynStr fun s => (s.append (Bytes.ofString name)).append [0]
    (offset, { d with nameOffsets := (name, offset) :: d.nameOffsets }, t)

/-- Notes that a library is needed. -/
def addNeeded (d : DynamicTables) (t : SymbolTable) (library : String) :
    DynamicTables × SymbolTable :=
  if d.neededNames.contains library then (d, t)
  else
    let d := { d with neededNames := library :: d.neededNames }
    let (offset, d, t) := d.addName t library
    ({ d with needed := d.needed ++ [offset] }, t)

/-- The entry of a symbol in the dynamic symbol table. Address and section of an import stay
open. -/
def appendEntry (entry : Symbol) (id : SymbolId) (s : Symbol) (nameOffset : Nat) : Symbol :=
  let type : UInt8 := if s.exported && s.kind.isText then 2 else 1
  let entry := entry.appendWord (.ofNat 32 nameOffset)
  let entry := if s.isImport then entry.appendWord 0 else entry.appendPatched .absolute id 0
  let entry := (entry.appendWord 0).append [0x10 ||| type, 0]
  let patch := Relocation.pending entry.data.length 2 .sectionIndex (some id) 0
  let entry := entry.append [0, 0]
  if s.isImport then entry else { entry with relocations := entry.relocations ++ [patch] }

/-- The index of a symbol in the dynamic symbol table, to which it is added unless it is there. The
library of an import becomes needed. -/
def ensureIndex (d : DynamicTables) (t : SymbolTable) (id : SymbolId) :
    Nat × DynamicTables × SymbolTable :=
  match (t.get id).dynamicIndex with
  | some index => (index, d, t)
  | none =>
    let index := d.count
    let d := { d with count := d.count + 1 }
    let (nameOffset, d, t) := d.addName t (t.get id).dynamicName
    let s := t.get id
    let t := t.modify d.dynSym fun entry => appendEntry entry id s nameOffset
    let t := t.modify id fun s => { s with dynamicIndex := some index }
    match s.importLibrary with
    | some library =>
      if s.isImport then
        let (d, t) := d.addNeeded t library
        (index, d, t)
      else (index, d, t)
    | none => (index, d, t)

/-- Adds a relocation that the loader applies: the place to patch, the symbol and the type. -/
def appendRel (table : SymbolId) (t : SymbolTable) (owner : SymbolId) (offset index type : Nat) :
    SymbolTable :=
  t.modify table fun s =>
    (s.appendPatched .absolute owner (.ofNat 64 offset)).appendWord
      (Elf.RelocationType.info (.ofNat 32 index) (.ofNat 32 type))

/-- The offset of an import's stub, which is made unless it is there. Until the loader binds the
import, the slot of the stub leads to the code that calls the loader. -/
def ensureStub (d : DynamicTables) (t : SymbolTable) (id : SymbolId) :
    Nat × DynamicTables × SymbolTable :=
  match (t.get id).pltOffset with
  | some stub => (stub, d, t)
  | none =>
    let (index, d, t) := d.ensureIndex t id
    let slot := (t.get d.gotPlt).data.length
    let t := t.modify d.gotPlt (·.appendPatched .absolute d.plt 0)
    let stub := (t.get d.plt).size
    let addend : Word64 := .ofInt 64 ((slot : Int) - 8)
    let t := t.modify d.plt fun s =>
      ((s.appendPatched .plt0 d.gotPlt addend).appendPatched .plt1 d.gotPlt addend).appendPatched
        .plt2 d.gotPlt addend
    let t := appendRel d.relPlt t d.gotPlt slot index Elf.RelocationType.jumpSlot
    let t := t.modify id fun s => { s with pltOffset := some stub, gotPltOffset := some slot }
    (stub, d, t)

/-- The offset of a symbol's slot in the global offset table, which is made unless it is there. The
loader fills the slot of an import; any other slot holds the symbol's address. -/
def ensureSlot (d : DynamicTables) (t : SymbolTable) (id : SymbolId) :
    Nat × DynamicTables × SymbolTable :=
  match (t.get id).gotOffset with
  | some slot => (slot, d, t)
  | none =>
    if (t.get id).isImport then
      let (index, d, t) := d.ensureIndex t id
      let slot := (t.get d.got).data.length
      let t := t.modify d.got (·.appendWord 0)
      let t := appendRel d.rel t d.got slot index Elf.RelocationType.globDat
      (slot, d, t.modify id fun s => { s with gotOffset := some slot })
    else
      let slot := (t.get d.got).data.length
      let t := t.modify d.got (·.appendPatched .absolute id 0)
      (slot, d, t.modify id fun s => { s with gotOffset := some slot })

/-- Adds all symbols that shared libraries can see to the dynamic symbol table. -/
def exportSymbols (d : DynamicTables) (t : SymbolTable) : DynamicTables × SymbolTable :=
  t.exported.foldl (fun (d, t) id => (d.ensureIndex t id).2) (d, t)

/-- Asks the loader to patch a word of a symbol. -/
def addRelocation (d : DynamicTables) (t : SymbolTable) (owner : SymbolId)
    (offset index type : Nat) : DynamicTables × SymbolTable :=
  ({ d with textRel := d.textRel || (t.get owner).kind.isText },
   appendRel d.rel t owner offset index type)

end DynamicTables

end ArmLink
