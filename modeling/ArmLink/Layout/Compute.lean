import ArmLink.Layout
import ArmLink.Report
import ArmLink.SymbolTable.Containment

/-!
# Computation of layouts

The reachable symbols are sorted into sections by their kind and placed one after the other:

* `promote` — data that was to start as zeros but has contents becomes ordinary data;
* `sectionsOf` — the sections, each with its symbols in the order in which they were first seen;
* `placeSegment` — addresses for the sections of a segment and the symbols in them;
* `finish` — addresses for symbols within other symbols and for the sentinels.

Each step that fails leaves the addresses behind that were given up to then.
-/

namespace ArmLink

inductive LayoutError where
  | contentsTooLong (symbol : String) (size contents : Nat)
  | threadLocalContents (symbol : String)
  | tooManySections (count : Nat)
  | segmentStart (segment : Elf.Segment) (address : Nat)
  /-- a section ends behind the last address, after a symbol if one is named -/
  | overflow (segment : Elf.Segment) (sectionName : String) (symbol : Option String)
  | segmentTooLong (segment : Elf.Segment) (length : Nat)
  | segmentTooFar (segment : Elf.Segment) (stop : Nat)
  /-- there is no section between two sentinels -/
  | missingSection (name : String)
  deriving DecidableEq, Repr

def LayoutError.message : LayoutError → String
  | contentsTooLong symbol size contents => s!"{symbol}: initialize bounds ({size} < {contents})"
  | threadLocalContents symbol => s!"{symbol}: thread-local symbols cannot have contents"
  | tooManySections count => s!"too many sections: {count}"
  | segmentStart segment address =>
    "segment too large: " ++ segment.label ++ " starts past " ++ Text.hex address
  | overflow segment sectionName symbol =>
    "segment too large: " ++ segment.label ++ " overflows the address space in " ++ sectionName
      ++ match symbol with
        | some name => " after " ++ name
        | none => ""
  | segmentTooLong segment length =>
    "segment too large: " ++ segment.label
      ++ s!" is {length} bytes, but at most {0xffffffff} bytes are addressable"
  | segmentTooFar segment stop =>
    "address is too big: " ++ segment.label ++ " ends at " ++ Text.hex stop
      ++ ", past the end of the 32 bit address space"
  | missingSection name => s!"missing {name} section"

namespace Layout

/-! ## Sections -/

/-- Whether a symbol is a candidate for a section of its own right. -/
def isCandidate (s : Symbol) : Bool := s.reachable && !s.special && s.outer.isNone

/-- The kind of a candidate in view of its contents. -/
def promotedKind (s : Symbol) : Except LayoutError SymbolKind :=
  if s.size < s.data.length then .error (.contentsTooLong s.text s.size s.data.length)
  else if s.data.isEmpty && s.relocations.isEmpty then .ok s.kind
  else
    match s.kind with
    | .bss => .ok .data
    | .noPtrBss => .ok .noPtrData
    | .tlsBss => .error (.threadLocalContents s.text)
    | kind => .ok kind

/-- Gives each candidate its kind in view of its contents. -/
def promote (t : SymbolTable) (ids : List SymbolId) :
    Except (Failure LayoutError SymbolTable) SymbolTable :=
  ids.foldlM (fun t id =>
    if isCandidate (t.get id) then
      match promotedKind (t.get id) with
      | .ok kind => .ok (t.modify id fun s => { s with kind })
      | .error reason => .error ⟨reason, t⟩
    else .ok t) t

/-- How the symbols of a kind make up sections. -/
inductive Grouping where
  /-- all in one section of the given name -/
  | together (name : String)
  /-- each in a section of its own name -/
  | apart
  deriving DecidableEq, Repr

/-- The kinds of symbols in the order of their sections. -/
def sectionOrder : List (SymbolKind × Elf.Segment × Grouping) :=
  open Elf.SectionName in
  [(.text, .text, .together text),
   (.codeTable, .text, .apart),
   (.readOnlyData, .rodata, .together rodata),
   (.typeLink, .rodata, .together typeLink),
   (.symbolTable, .rodata, .together programSymbols),
   (.pcLineTable, .rodata, .together programLines),
   (.readOnlyTable, .rodata, .apart),
   (.writableTable, .data, .apart),
   (.noPtrData, .data, .together noPtrData),
   (.data, .data, .together data),
   (.bss, .data, .together bss),
   (.noPtrBss, .data, .together noPtrBss),
   (.tlsBss, .tls, .together tbss)]

/-- The type, flags and entry size of a table that is only read. -/
def readOnlyTable (name : String) : Nat × Nat × Nat :=
  open Elf in
  if name = SectionName.dynSym then (SectionType.dynSym, SectionFlags.alloc, 16)
  else if name = SectionName.dynStr then (SectionType.strTab, SectionFlags.alloc, 0)
  else if name = SectionName.hash then (SectionType.hash, SectionFlags.alloc, 4)
  else if name = SectionName.rel then (SectionType.rel, SectionFlags.alloc, 8)
  else if name = SectionName.relPlt then
    (SectionType.rel, SectionFlags.alloc ||| SectionFlags.infoLink, 8)
  else (SectionType.progBits, SectionFlags.alloc, 0)

/-- The type, flags and entry size of a table that may be written. -/
def writableTable (name : String) : Nat × Nat × Nat :=
  open Elf in
  let flags := SectionFlags.alloc ||| SectionFlags.write
  if name = SectionName.dynamic then (SectionType.dynamic, flags, 8)
  else if name = SectionName.got ∨ name = SectionName.gotPlt then (SectionType.progBits, flags, 4)
  else (SectionType.progBits, flags, 0)

/-- The type, flags and entry size of a section of a name and kind. -/
def attributes (name : String) (kind : SymbolKind) : Nat × Nat × Nat :=
  open Elf in
  let writable := SectionFlags.alloc ||| SectionFlags.write
  match kind with
  | .text | .codeTable =>
    (SectionType.progBits, SectionFlags.alloc ||| SectionFlags.execInstr, 0)
  | .readOnlyTable => readOnlyTable name
  | .writableTable => writableTable name
  | .bss | .noPtrBss => (SectionType.noBits, writable, 0)
  | .tlsBss => (SectionType.noBits, writable ||| SectionFlags.tls, 0)
  | .noPtrData | .data => (SectionType.progBits, writable, 0)
  | _ => (SectionType.progBits, SectionFlags.alloc, 0)

/-- A section that is still to be placed. -/
def newSection (name : String) (kind : SymbolKind) (segment : Elf.Segment)
    (symbols : List SymbolId) : Section :=
  let (type, flags, entrySize) := attributes name kind
  { name, segment, type, flags, entrySize, symbols }

/-- The candidates of a kind. -/
def candidates (t : SymbolTable) (kind : SymbolKind) : List SymbolId :=
  t.ids.filter fun id => isCandidate (t.get id) && (t.get id).kind = kind

/-- The sections of the symbols of a kind. Thread-local data has a section only if there is any;
the other shared sections are always there, so that their sentinels have a place. -/
def sectionsOfKind (t : SymbolTable) (kind : SymbolKind) (segment : Elf.Segment) :
    Grouping → List Section
  | .together name =>
    let symbols := candidates t kind
    if kind = .tlsBss ∧ symbols.isEmpty then [] else [newSection name kind segment symbols]
  | .apart =>
    (candidates t kind).map fun id => newSection (t.get id).name kind segment [id]

def sectionsOf (t : SymbolTable) : List Section :=
  sectionOrder.flatMap fun (kind, segment, grouping) => sectionsOfKind t kind segment grouping

/-! ## Addresses -/

/-- The alignment of a symbol: what it asks for, and for code at least that of instructions. -/
def symbolAlignment (s : Symbol) : Alignment :=
  if s.kind.isText then (s.alignment.getD .word).max .word
  else s.alignment.getD (.forSize s.size)

/-- The address that a symbol got. -/
structure Place where
  symbol : SymbolId
  sectionId : SectionId
  address : Nat
  deriving DecidableEq, Repr

/-- A step of placing symbols: if it fails, it still tells the places given up to then. -/
abbrev Placing (α : Type) := Except (Failure LayoutError (List Place)) α

/-- A step that comes after `earlier` places were given. -/
def Placing.after {α : Type} (earlier : List Place) (step : Placing α) : Placing α :=
  step.mapError fun failure => { failure with state := earlier ++ failure.state }

/-- Places symbols of a section one after the other from `cursor` on. -/
def placeSymbols (t : SymbolTable) (s : Section) (sectionId : SectionId) :
    List SymbolId → (cursor : Nat) → Placing (List Place × Nat)
  | [], cursor => .ok ([], cursor)
  | id :: rest, cursor =>
    match (symbolAlignment (t.get id)).alignUp? cursor with
    | none => .error ⟨.overflow s.segment s.name none, []⟩
    | some address =>
      let place : Place := ⟨id, sectionId, address⟩
      let stop := address + (t.get id).size
      if stop < addressSpace then do
        let (places, stop) ← Placing.after [place] (placeSymbols t s sectionId rest stop)
        return (place :: places, stop)
      else .error ⟨.overflow s.segment s.name (some (t.get id).text), [place]⟩

/-- Places a section and its symbols from `start` on, rounded up to its alignment. -/
def placeSection (t : SymbolTable) (s : Section) (sectionId : SectionId) (start : Nat) :
    Placing (Section × List Place) := do
  let alignment := Alignment.strictest (s.symbols.map fun id => symbolAlignment (t.get id))
  match alignment.alignUp? start with
  | none => .error ⟨.overflow s.segment s.name none, []⟩
  | some address =>
    let (places, stop) ← placeSymbols t s sectionId s.symbols address
    return ({ s with alignment, address, length := stop - address }, places)

/-- Places sections one after the other from `cursor` on. -/
def placeSections (t : SymbolTable) :
    List (Section × SectionId) → (cursor : Nat) → Placing (List Section × List Place × Nat)
  | [], cursor => .ok ([], [], cursor)
  | (s, id) :: rest, cursor => do
    let (s, places) ← placeSection t s id cursor
    let (sections, more, stop) ←
      Placing.after places (placeSections t rest (s.address + s.length))
    return (s :: sections, places ++ more, stop)

/-- The numbered sections of a segment. -/
def sectionsIn (sections : List Section) (segment : Elf.Segment) : List (Section × SectionId) :=
  sections.zipIdx.filter (·.1.segment = segment)

/-- The part of a segment that is stored in the file: all up to the first section of zeros. -/
def storedLength (sections : List Section) (address length : Nat) : Nat :=
  match sections.find? (·.type = Elf.SectionType.noBits) with
  | some s => s.address - address
  | none => length

/-- A segment must lie within 32-bit addresses. -/
def checkExtent (e : Extent) : Except LayoutError Unit :=
  if 0x100000000 ≤ e.length then .error (.segmentTooLong e.segment e.length)
  else if 0x100000000 < e.stop then .error (.segmentTooFar e.segment e.stop)
  else .ok ()

/-- Where a segment behind `cursor` starts, and where its first section may. The first segment also
maps the headers before its sections; the others start at the next page. -/
def segmentStart? (textStart : Nat) (segment : Elf.Segment) (cursor : Nat) : Option (Nat × Nat) :=
  if segment = .text then some (textStart - headerSpace, textStart)
  else (Alignment.page.alignUp? cursor).map fun start => (start, start)

def placeSegment (t : SymbolTable) (textStart : Nat) (sections : List Section)
    (segment : Elf.Segment) (cursor : Nat) :
    Placing (Extent × List Section × List Place × Nat) :=
  match segmentStart? textStart segment cursor with
  | none => .error ⟨.segmentStart segment cursor, []⟩
  | some (address, start) => do
    let (placed, places, stop) ← placeSections t (sectionsIn sections segment) start
    let length := stop - address
    let extent : Extent :=
      { segment, address, length
        fileOffset := address + headerSpace - textStart
        fileLength := storedLength placed address length }
    match checkExtent extent with
    | .ok () => return (extent, placed, places, stop)
    | .error reason => .error ⟨reason, places⟩

def placeSegments (t : SymbolTable) (textStart : Nat) (sections : List Section) :
    List Elf.Segment → (cursor : Nat) → Placing (List Extent × List Section × List Place × Nat)
  | [], cursor => .ok ([], [], [], cursor)
  | segment :: rest, cursor => do
    let (extent, placed, places, stop) ← placeSegment t textStart sections segment cursor
    let (extents, others, more, stop) ←
      Placing.after places (placeSegments t textStart sections rest stop)
    return (extent :: extents, placed ++ others, places ++ more, stop)

/-- Moves a thread-local section behind the data. Its symbols keep their offsets. -/
def moveTls (dataEnd : Nat) (s : Section) : Section :=
  { s with address := s.alignment.alignUp dataEnd }

/-- Places all sections: the mapped segments, then the thread-local data, whose symbols are placed
from zero on. -/
def placeAll (t : SymbolTable) (textStart : Nat) (sections : List Section) :
    Placing (List Extent × List Section × List Place) := do
  let (extents, loaded, places, dataEnd) ←
    placeSegments t textStart sections Elf.Segment.loads textStart
  let (threadLocal, more, _) ←
    Placing.after places (placeSections t (sectionsIn sections .tls) 0)
  return (extents, loaded ++ threadLocal.map (moveTls dataEnd), places ++ more)

/-- The table with addresses given to symbols. -/
def assign (t : SymbolTable) (places : List Place) : SymbolTable :=
  places.foldl (fun t p =>
    t.modify p.symbol fun s =>
      { s with value := some p.address, sectionId := some p.sectionId }) t

/-! ## Symbols without a place of their own -/

/-- Gives a symbol that lies within another one the address of its place there. -/
def placeWithin (t : SymbolTable) (id : SymbolId) : SymbolTable :=
  if (t.get id).outer.isSome then
    let (root, offset) := t.outermost id
    let r := t.get root
    match r.value with
    | some value =>
      if r.kind.isPlaced then
        t.modify id fun s =>
          { s with value := some (Word64.wrap (value + offset)), sectionId := r.sectionId }
      else t
    | none => t
  else t

/-- The pairs of sentinels, with the section that they enclose and the kind that they get. -/
def sentinelPairs : List (String × String × String × SymbolKind) :=
  open Elf.SectionName in
  [("text", "etext", text, .text),
   ("rodata", "erodata", rodata, .readOnlyData),
   ("typelink", "etypelink", typeLink, .typeLink),
   ("symtab", "esymtab", programSymbols, .symbolTable),
   ("pclntab", "epclntab", programLines, .pcLineTable),
   ("noptrdata", "enoptrdata", noPtrData, .noPtrData),
   ("data", "edata", data, .data),
   ("bss", "ebss", bss, .bss),
   ("noptrbss", "enoptrbss", noPtrBss, .noPtrBss)]

/-- Gives a sentinel its kind, value and section. -/
def defineSentinel (t : SymbolTable) (name : String) (kind : SymbolKind) (value : Nat)
    (sectionId : Option SectionId) : SymbolTable :=
  let (id, t) := t.defineSpecial name kind value
  t.modify id fun s => { s with sectionId }

/-- Gives the pairs of sentinels the bounds of their sections. -/
def definePairs (l : Layout) (t : SymbolTable) :
    Except (Failure LayoutError SymbolTable) SymbolTable :=
  sentinelPairs.foldlM (fun t (start, stop, name, kind) =>
    match l.sectionId? name with
    | none => .error ⟨.missingSection name, t⟩
    | some id =>
      let s := l.getSection id
      let t := defineSentinel t start kind s.address (some id)
      .ok (defineSentinel t stop kind (s.address + s.length) (some id))) t

/-- Gives all sentinels their values; the last one is the end of the data segment. -/
def defineSentinels (l : Layout) (t : SymbolTable) :
    Except (Failure LayoutError SymbolTable) SymbolTable := do
  let t ← definePairs l t
  let stop := ((l.extent? .data).map (·.stop)).getD 0
  return defineSentinel t "end" .bss stop (l.sectionId? Elf.SectionName.noPtrBss)

/-- Where the first section starts: right behind the headers of a file that is mapped at zero if
it is relocatable, and at a fixed address otherwise. -/
def textStartOf (relocatable : Bool) : Nat :=
  if relocatable then headerSpace else fixedBase + headerSpace

/-- The layout of all reachable symbols, and the table with their addresses. `firstIndex` is the
index of the first section's header. -/
def compute (t : SymbolTable) (relocatable : Bool) (firstIndex : Nat) :
    Except (Failure LayoutError SymbolTable) (Layout × SymbolTable) := do
  let textStart := textStartOf relocatable
  let t ← promote t t.ids
  let sections := sectionsOf t
  if 32767 ≤ sections.length then .error ⟨.tooManySections sections.length, t⟩
  else
    match placeAll t textStart sections with
    | .error failure => .error ⟨failure.error, assign t failure.state⟩
    | .ok (extents, sections, places) =>
      let numbered := sections.mapIdx fun i s => { s with elfIndex := firstIndex + i }
      let l : Layout := { sections := numbered, extents, textStart }
      let t := t.ids.foldl placeWithin (assign t places)
      return (l, ← defineSentinels l t)

end Layout

end ArmLink
