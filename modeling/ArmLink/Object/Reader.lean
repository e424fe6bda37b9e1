import ArmLink.Arm.Instruction.Reader
import ArmLink.Object
import ArmLink.Toml.Document

/-!
# Reading of object files

An object file is a TOML document. Reading goes through three stages: the document, its entries
with every field in its place, and the symbols with their contents assembled. An error of an earlier
stage always comes first.
-/

namespace ArmLink

namespace Object

open Data Data.Fields

/-! ## Entries -/

structure RelocationEntry where
  offset : Nat
  size : Nat
  kind : String
  target : Option String
  /-- the addend, or the value of a constant -/
  add : Option Int
  deriving Repr

def RelocationEntry.fields : Fields RelocationEntry :=
  RelocationEntry.mk <$> required "offset" (.unsigned 32) <*> required "size" (.unsigned 8)
    <*> required "kind" .string <*> optional "target" .string <*> optional "add" (.signed 64)

structure SymbolEntry where
  name : String
  kind : DefinedKind
  isLocal : Bool
  exported : Bool
  align : Option Nat
  /-- its size, if that is not the size of its contents -/
  size : Option Nat
  value : Option Int
  string : Option String
  bytes : Option (List Nat)
  instructions : List Arm.Instruction
  relocations : List RelocationEntry
  outer : Option String
  outerOffset : Nat
  deriving Repr

/-- How object files spell the kinds of symbols. -/
def kindSpellings : List (String × SymbolKind) :=
  [("text", .text), ("rodata", .readOnlyData), ("typelink", .typeLink), ("symtab", .symbolTable),
   ("pclntab", .pcLineTable), ("noptrdata", .noPtrData), ("data", .data), ("bss", .bss),
   ("noptrbss", .noPtrBss), ("tlsbss", .tlsBss), ("constant", .constant),
   ("hostobj", .hostObject)]

theorem kind_ne_undefined : ∀ spelling ∈ kindSpellings, spelling.2 ≠ .undefined := by decide

/-- A kind of symbols by its name. -/
def kindReader : Reader DefinedKind :=
  choice (kindSpellings.attach.map fun ⟨(name, kind), h⟩ =>
    (name, .unit ⟨kind, kind_ne_undefined _ h⟩))

def SymbolEntry.fields : Fields SymbolEntry :=
  SymbolEntry.mk <$> required "name" .string <*> required "kind" kindReader
    <*> withDefault "local" .boolean false <*> withDefault "export" .boolean false
    <*> optional "align" (.unsigned 64) <*> optional "size" (.unsigned 64)
    <*> optional "value" (.signed 64) <*> optional "string" .string
    <*> optional "bytes" (.list (.unsigned 8))
    <*> withDefault "instructions" (.list Arm.Instruction.reader) []
    <*> withDefault "relocations" (.list (RelocationEntry.fields.read true)) []
    <*> optional "outer" .string <*> withDefault "outer_offset" (.unsigned 64) 0

def importFields : Fields ObjectImport :=
  ObjectImport.mk <$> required "name" .string <*> optional "library" .string
    <*> optional "remote" .string

def objectFields : Fields (List SymbolEntry × List ObjectImport) :=
  Prod.mk <$> withDefault "symbol" (.list (SymbolEntry.fields.read true)) []
    <*> withDefault "import" (.list (importFields.read true)) []

/-! ## Symbols -/

/-- The kinds of relocations that have a name of their own. -/
def relocationSpellings : List (String × Relocation.Kind) :=
  [("addr", .absolute), ("pcrel", .pcRelative), ("call", .call), ("tls", .tls), ("size", .size),
   ("gotoff", .gotOffset)]

/-- The kind of a relocation by its name; `none` for a constant. -/
def relocationKind (name : String) : Except SymbolFault (Option Relocation.Kind) :=
  if name = "const" then .ok none
  else
    match relocationSpellings.lookup name with
    | some kind => .ok (some kind)
    | none =>
      if "R_ARM_".toList.isPrefixOf name.toList then
        match Elf.RelocationType.names.find? (·.2 = name) with
        | some (type, _) => .ok (some (.elf type))
        | none => .error (.unknownRelocationType name)
      else .error (.unknownRelocationKind name)

/-- The addend of a relocation. Without one, an ELF relocation of a word takes the word that it
patches, as a signed number, and any other relocation takes zero. -/
def addend (e : RelocationEntry) (kind : Relocation.Kind) (data : Bytes) :
    Except SymbolFault Word64 :=
  match e.add, kind with
  | some add, _ => .ok (.ofInt 64 add)
  | none, .elf _ =>
    if e.size = 4 then
      match data.slice? e.offset 4 with
      | some bytes => .ok ((BitVec.ofNat 32 bytes.toNat).signExtend 64)
      | none => .error .relocationOutside
    else .ok 0
  | none, _ => .ok 0

/-- The relocation of a symbol with the given data. -/
def relocation (e : RelocationEntry) (data : Bytes) : Except SymbolFault (Relocation String) := do
  if e.size = 1 ∨ e.size = 2 ∨ e.size = 4 ∨ e.size = 8 then
    match ← relocationKind e.kind with
    | none => return ⟨e.offset, e.size, .constant (.ofInt 64 (e.add.getD 0))⟩
    | some kind => return .pending e.offset e.size kind e.target (← addend e kind data)
  else .error (.relocationSize e.size)

/-- The contents of a symbol: its bytes, and the patches that its instructions ask for. -/
def contents (e : SymbolEntry) : Except SymbolFault Arm.Body :=
  let given := [e.string.isSome, e.bytes.isSome, !e.instructions.isEmpty]
  if 1 < given.count true then .error .severalContents
  else
    match e.string, e.bytes, e.instructions with
    | some text, _, _ => .ok { bytes := Bytes.ofString text }
    | none, some bytes, _ => .ok { bytes := bytes.map UInt8.ofNat }
    | none, none, [] => .ok {}
    | none, none, instructions =>
      if e.kind.val = .text then (Arm.assemble instructions).mapError .body
      else .error .instructionsOutsideText

/-- The value of a symbol, which constants have and no others. -/
def constantValue (e : SymbolEntry) : Except SymbolFault (Option Nat) :=
  match e.kind.val, e.value with
  | .constant, some value => .ok (some (BitVec.ofInt 64 value).toNat)
  | .constant, none => .error .missingValue
  | _, some _ => .error .unexpectedValue
  | _, none => .ok none

/-- The symbol that an entry describes. -/
def symbol (e : SymbolEntry) : Except SymbolFault ObjectSymbol := do
  let body ← contents e
  let patches ← e.relocations.mapM (relocation · body.bytes)
  let relocations := body.relocations ++ patches
  match e.outer with
  | some outer =>
    if !(body.bytes.isEmpty && relocations.isEmpty) then .error (.containedContents outer)
  | none => pure ()
  let value ← constantValue e
  let alignment ←
    match e.align with
    | some raw => some <$> (Alignment.ofNat? raw).mapError SymbolFault.alignment
    | none => pure none
  return {
    name := e.name
    kind := e.kind
    kind_ne_undefined := e.kind.property
    isLocal := e.isLocal
    exported := e.exported
    size := e.size.getD body.bytes.length
    alignment, value
    data := body.bytes
    relocations
    outer := e.outer.map (·, e.outerOffset) }

/-- The object that a text describes. -/
def ofText (path text : String) : Except ObjectError Object := do
  let some document := Toml.parse? text | .error .notDocument
  let (entries, imports) ← (objectFields.read true .toml document).mapError .shape
  let symbols ← entries.mapM fun e => (symbol e).mapError (.symbol e.name)
  return { path, symbols, imports }

end Object

end ArmLink
