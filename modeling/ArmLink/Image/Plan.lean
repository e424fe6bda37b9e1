import ArmLink.Image.Symbols
import ArmLink.Resolve

/-!
# Plans of output files

Before a file is made everything about it is settled:

* `Front` — what stands in the space before the first section;
* `segmentHeaders` — how the loader maps the file;
* `sectionHeaders` — the sections of the layout, and what stands in front of them;
* `Tail` — the tables behind the mapped part: relocations for a host linker, symbols, names.
-/

namespace ArmLink.Image

open Elf

inductive PlanError where
  | missingText
  /-- what stands before the first section is too long -/
  | headersTooLong (length : Nat)
  /-- a relocation for the host linker lies in no section -/
  | relocationOutsideSections
  /-- a relocation for the host linker refers to a symbol that is not listed -/
  | targetNotListed (symbol : String)
  /-- a relocation for the host linker lies in a symbol without an address -/
  | relocationWithoutAddress
  | tooManySections (count : Nat)
  | entryNotText (symbol : String)
  | entryWithoutAddress (symbol : String)
  deriving DecidableEq, Repr

def PlanError.message : PlanError → String
  | missingText => "missing text segment"
  | headersTooLong length => s!"ELFRESERVE too small: {length} > {headerSpace}"
  | relocationOutsideSections => "relocation outside any section"
  | targetNotListed symbol => s!"relocation against {symbol} which isn't in .symtab"
  | relocationWithoutAddress => "relocation in symbol without an address"
  | tooManySections count => s!"too many sections: {count}"
  | entryNotText symbol => s!"entry not text: {symbol}"
  | entryWithoutAddress symbol => s!"entry symbol {symbol} hasn't been given an address"

/-! ## In front of the first section -/

/-- The name of the notes that hold build ids. -/
def noteName : Bytes := Bytes.ofString "GNU" ++ [0]

/-- The size of the three numbers that a note starts with. -/
def noteHeaderSize : Nat := 12

/-- The size of a note, which is padded to words. -/
def noteSize (idSize : Nat) : Nat :=
  noteHeaderSize + noteName.length + Alignment.word.alignUp idSize

/-- What stands in the space before the first section. -/
structure Front where
  headerCount : Nat
  /-- where the path of the dynamic loader stands, and the path -/
  interpreter : Option (Nat × Bytes)
  /-- where the build id's note stands, and the size of the id -/
  note : Option (Nat × Nat)
  /-- the offset behind it all -/
  stop : Nat
  deriving DecidableEq, Repr

/-- The number of program headers: two for the dynamic loader, one each for the build id, the
dynamic section and thread-local data if they are there, those of the mapped segments, and that of
the stack. Object files have none. -/
def programHeaderCount (l : Layout) (o : Options) : Nat :=
  if o.isExternal then 0
  else
    (if o.interpreter?.isSome then 2 else 0) + (if o.buildIdSize?.isSome then 1 else 0)
      + Segment.loads.length + (if (l.section? SectionName.dynamic).isSome then 1 else 0)
      + (if l.tlsSection?.isSome then 1 else 0) + 1

/-- What stands in front of the first section. -/
def Front.compute (l : Layout) (o : Options) : Front :=
  let count := programHeaderCount l o
  let stop := FileHeader.byteSize + count * ProgramHeader.byteSize
  let (interpreter, stop) :=
    match o.interpreter? with
    | some path =>
      let bytes := Bytes.ofString path ++ [0]
      (some (stop, bytes), stop + bytes.length)
    | none => (none, stop)
  let (note, stop) :=
    match o.buildIdSize? with
    | some size =>
      let offset := Alignment.word.alignUp stop
      (some (offset, size), offset + noteSize size)
    | none => (none, stop)
  ⟨count, interpreter, note, stop⟩

/-! ## Segments -/

/-- Where a section is stored, or would be if it were stored. -/
def sectionOffset (l : Layout) (s : Section) : Nat :=
  if s.segment = .tls then l.fileSize
  else
    match l.extent? s.segment with
    | some e => e.fileOffset + s.address - e.address
    | none => 0

/-- The header of a segment with the same bytes in the file and in memory. -/
def segmentHeader (segment : Segment) (offset address size alignment : Nat) : ProgramHeader :=
  { type := segment.type, flags := segment.flags, offset, address, fileSize := size,
    memorySize := size, alignment }

/-- The headers of what stands in front of the first section, given where that is mapped. -/
def frontHeaders (base : Nat) (front : Front) : List ProgramHeader :=
  (match front.interpreter with
    | some (offset, path) =>
      [segmentHeader .phdr FileHeader.byteSize (base + FileHeader.byteSize)
          (front.headerCount * ProgramHeader.byteSize) Segment.phdr.alignment.value,
        segmentHeader .interp offset (base + offset) path.length 1]
    | none => [])
  ++ (match front.note with
    | some (offset, size) =>
      [segmentHeader .note offset (base + offset) (noteSize size) Segment.note.alignment.value]
    | none => [])

def loadHeader (e : Extent) : ProgramHeader :=
  { type := e.segment.type, flags := e.segment.flags, offset := e.fileOffset, address := e.address,
    fileSize := e.fileLength, memorySize := e.length, alignment := e.segment.alignment.value }

/-- The headers of sections that the loader has to find. -/
def sectionSegments (l : Layout) : List ProgramHeader :=
  (match l.section? SectionName.dynamic with
    | some s =>
      [segmentHeader .dynamic (sectionOffset l s) s.address s.length
        Segment.dynamic.alignment.value]
    | none => [])
  ++ (match l.tlsSection? with
    | some s =>
      [{ segmentHeader .tls (sectionOffset l s) s.address s.length s.alignment.value with
         fileSize := 0 }]
    | none => [])

/-- All program headers, in order. -/
def segmentHeaders (l : Layout) (external : Bool) (base : Nat) (front : Front) :
    List ProgramHeader :=
  if external then []
  else
    frontHeaders base front ++ l.extents.map loadHeader ++ sectionSegments l
      ++ [segmentHeader .stack 0 0 0 Segment.stack.alignment.value]

/-! ## Sections -/

/-- The headers of what stands in front of the first section: the empty one, those of the dynamic
loader's path and of the build id. -/
def frontSections (base : Nat) (front : Front) (names : StringTable) :
    List SectionHeader × StringTable :=
  let (interpreter, names) :=
    match front.interpreter with
    | some (offset, path) =>
      let (name, names) := names.addString SectionName.interp
      ([{ name, type := SectionType.progBits, flags := SectionFlags.alloc,
          address := base + offset, offset, size := path.length, alignment := 1 : SectionHeader }],
        names)
    | none => ([], names)
  let (note, names) :=
    match front.note with
    | some (offset, size) =>
      let (name, names) := names.addString SectionName.buildId
      ([{ name, type := SectionType.note, flags := SectionFlags.alloc, address := base + offset,
          offset, size := noteSize size, alignment := Alignment.word.value : SectionHeader }],
        names)
    | none => ([], names)
  (default :: interpreter ++ note, names)

/-- The index of the header of a section, 0 if there is no such section. -/
def indexOf (l : Layout) (name : String) : Nat := ((l.section? name).map (·.elfIndex)).getD 0

/-- The sections that a section refers to: the strings of symbols, the symbols of relocations, the
stubs that are relocated. -/
def references (l : Layout) (name : String) : Nat × Nat :=
  if name = SectionName.dynSym then (indexOf l SectionName.dynStr, 1)
  else if name = SectionName.dynamic then (indexOf l SectionName.dynStr, 0)
  else if name = SectionName.hash ∨ name = SectionName.rel then (indexOf l SectionName.dynSym, 0)
  else if name = SectionName.relPlt then
    (indexOf l SectionName.dynSym, indexOf l SectionName.plt)
  else (0, 0)

/-- The header of a section of the layout. Addresses are left to a host linker. -/
def layoutSection (l : Layout) (external : Bool) (s : Section) (name : Nat) : SectionHeader :=
  let (link, info) := references l s.name
  { name, type := s.type, flags := s.flags, address := if external then 0 else s.address,
    offset := sectionOffset l s, size := s.length, link, info, alignment := s.alignment.value,
    entrySize := s.entrySize }

def layoutSections (l : Layout) (external : Bool) :
    List Section → StringTable → List SectionHeader × StringTable
  | [], names => ([], names)
  | s :: rest, names =>
    let (name, names) := names.addString s.name
    let (others, names) := layoutSections l external rest names
    (layoutSection l external s name :: others, names)

/-! ## Relocations for a host linker -/

structure RelocationGroup where
  sectionId : SectionId
  relocations : List HostRelocation
  deriving DecidableEq, Repr

/-- Relocations grouped by the section of their owner, in the order of the sections. -/
def groupBySection (t : SymbolTable) (l : Layout) (relocations : List HostRelocation) :
    Except PlanError (List RelocationGroup) :=
  if relocations.any fun r => (t.get r.owner).sectionId.isNone then
    .error .relocationOutsideSections
  else
    .ok ((List.range l.sections.length).filterMap fun sectionId =>
      match relocations.filter fun r => (t.get r.owner).sectionId = some sectionId with
      | [] => none
      | group => some ⟨sectionId, group⟩)

/-- The entry of a relocation for the host linker. Its place is counted from the start of the
section, in 64 bits; of the index of its symbol there is room for 24. -/
def relocationEntry (t : SymbolTable) (symbols : List Listed) (s : Section) (r : HostRelocation) :
    Except PlanError RelocationEntry :=
  match symbols.findIdx? (·.symbol = r.target) with
  | none => .error (.targetNotListed (t.get r.target).text)
  | some index =>
    match (t.get r.owner).value with
    | none => .error .relocationWithoutAddress
    | some address =>
      .ok ⟨Word64.minus (address + r.offset) s.address,
        RelocationType.info (.ofNat 32 (index + 1)) (.ofNat 32 r.type)⟩

structure RelocationTable where
  offset : Nat
  entries : List RelocationEntry
  deriving DecidableEq, Repr

/-- The tables of relocations from `offset` on, with their headers, the names and the offset behind
them. -/
def relocationTables (t : SymbolTable) (l : Layout) (symbols : List Listed) (symbolsIndex : Nat) :
    List RelocationGroup → StringTable → (offset : Nat) →
      Except PlanError (List RelocationTable × List SectionHeader × StringTable × Nat)
  | [], names, offset => .ok ([], [], names, offset)
  | g :: rest, names, offset => do
    let s := l.getSection g.sectionId
    let entries ← g.relocations.mapM (relocationEntry t symbols s)
    let size := entries.length * RelocationEntry.byteSize
    let offset := Alignment.word.alignUp offset
    let (name, names) := names.addString (".rel" ++ s.name)
    let header : SectionHeader :=
      { name, type := SectionType.rel, flags := SectionFlags.infoLink, offset, size,
        link := symbolsIndex, info := s.elfIndex, alignment := Alignment.word.value,
        entrySize := RelocationEntry.byteSize }
    let (tables, headers, names, stop) ←
      relocationTables t l symbols symbolsIndex rest names (offset + size)
    return (⟨offset, entries⟩ :: tables, header :: headers, names, stop)

/-! ## Where the program starts -/

/-- What is worth telling though it is no failure. -/
inductive Warning where
  /-- the symbol where the program should start is not defined, so it starts elsewhere -/
  | missingEntry (name : String) (address : Nat)
  deriving DecidableEq, Repr

def Warning.message : Warning → String
  | missingEntry name address =>
    "cannot find entry symbol `" ++ name ++ "`; defaulting to " ++ Text.hex address

/-- The address where the program starts. -/
def entryAddress (t : SymbolTable) (l : Layout) (o : Options) :
    Except PlanError (Nat × Option Warning) :=
  if o.isExternal then .ok (0, none)
  else
    match o.entry with
    | .address address => .ok (address, none)
    | .symbol name =>
      match (t.find? name 0).filter fun id => (t.get id).isDefined with
      | none => .ok (l.textStart, some (.missingEntry name l.textStart))
      | some id =>
        let s := t.get id
        if !s.kind.isText then .error (.entryNotText s.text)
        else
          match s.value with
          | none => .error (.entryWithoutAddress s.text)
          | some address => .ok (address, none)

/-! ## The whole file -/

/-- The symbols in the file. -/
structure SymbolSection where
  offset : Nat
  /-- the entries after the empty one -/
  symbols : List Listed
  namesOffset : Nat
  names : StringTable
  deriving DecidableEq, Repr

structure Plan where
  type : Nat
  entry : Nat
  warning : Option Warning
  front : Front
  segments : List ProgramHeader
  sections : List SectionHeader
  relocations : List RelocationTable
  /-- the symbols, unless they are left out -/
  symbols : Option SymbolSection
  namesIndex : Nat
  namesOffset : Nat
  names : StringTable
  headersOffset : Nat
  deriving DecidableEq, Repr

/-- The size of the planned file, which ends with the section headers. -/
def Plan.fileSize (p : Plan) : Nat :=
  p.headersOffset + p.sections.length * SectionHeader.byteSize

/-- What the file is: an object file, or an executable of one of two kinds. -/
def fileType (o : Options) : Nat :=
  if o.isExternal then FileType.relocatable
  else if o.isRelocatable then FileType.shared
  else FileType.executable

/-- The symbols and their names from `offset` on, with their two section headers. -/
def symbolSections (symbols : List Listed) (strings : StringTable) (index offset : Nat)
    (names : StringTable) : SymbolSection × List SectionHeader × StringTable :=
  let offset := Alignment.word.alignUp offset
  let size := (symbols.length + 1) * SymbolEntry.byteSize
  let (symbolsName, names) := names.addString SectionName.symTab
  let (stringsName, names) := names.addString SectionName.strTab
  let locals := symbols.takeWhile (!·.entry.isGlobal)
  (⟨offset, symbols, offset + size, strings⟩,
    [{ name := symbolsName, type := SectionType.symTab, offset, size, link := index + 1,
       info := locals.length + 1, alignment := Alignment.word.value,
       entrySize := SymbolEntry.byteSize },
     { name := stringsName, type := SectionType.strTab, offset := offset + size,
       size := strings.bytes.length, alignment := 1 }],
    names)

/-- Settles what is where in the output file. -/
def plan (t : SymbolTable) (l : Layout) (o : Options) (relocations : List HostRelocation) :
    Except PlanError Plan := do
  let external := o.isExternal
  let some text := l.extent? .text | .error .missingText
  let front := Front.compute l o
  if headerSpace < front.stop then .error (.headersTooLong front.stop)
  else
    let (frontHeaders, names) := frontSections text.address front .empty
    let (headers, names) := layoutSections l external l.sections names
    let hasSymbols := external || !o.stripAll
    let (symbols, strings) := if hasSymbols then listed t l external else ([], .empty)
    let groups ← groupBySection t l relocations
    let namesIndex := frontHeaders.length + headers.length + groups.length
    let symbolsIndex := namesIndex + 1
    let (tables, tableHeaders, names, stop) ←
      relocationTables t l symbols symbolsIndex groups names l.fileSize
    let (namesName, names) := names.addString SectionName.shStrTab
    let (symbolSection, symbolHeaders, names) :=
      if hasSymbols then
        let (section', headers, names) := symbolSections symbols strings symbolsIndex stop names
        (some section', headers, names)
      else (none, [], names)
    let namesOffset :=
      match symbolSection with
      | some s => s.namesOffset + s.names.bytes.length
      | none => stop
    let namesHeader : SectionHeader :=
      { name := namesName, type := SectionType.strTab, offset := namesOffset,
        size := names.bytes.length, alignment := 1 }
    let sections := frontHeaders ++ headers ++ tableHeaders ++ [namesHeader] ++ symbolHeaders
    if SectionHeader.maxCount ≤ sections.length then .error (.tooManySections sections.length)
    else
      let (entry, warning) ← entryAddress t l o
      return {
        type := fileType o
        entry
        warning
        front
        segments := segmentHeaders l external text.address front
        sections
        relocations := tables
        symbols := symbolSection
        namesIndex
        namesOffset
        names
        headersOffset := Alignment.word.alignUp (namesOffset + names.bytes.length) }

end ArmLink.Image
