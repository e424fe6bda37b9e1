import ArmLink.Blake3
import ArmLink.Image.Plan

/-!
# Bytes of output files

A file starts as zeros, and its parts are put in place one after the other: the headers, the path of
the dynamic loader, the bytes of the symbols, the tables, and last the build id, which may be a hash
of all the rest.
-/

namespace ArmLink.Image

open Elf

inductive WriteError where
  | withoutAddress
  | notStored (symbol : String) (address : Nat)
  | outside (start stop : Nat)
  | symbolOutside (symbol : String) (start stop : Nat)
  deriving DecidableEq, Repr

def WriteError.report : WriteError → Report
  | withoutAddress => .plain "laid-out symbol without an address"
  | notStored symbol address =>
    .plain (symbol ++ " at " ++ Text.hex address ++ " isn't stored in the file")
  | outside start stop => .plain (outsideMessage start stop)
  | symbolOutside symbol start stop =>
    (Report.plain (outsideMessage start stop)).within ("Failed to write " ++ symbol)
where
  outsideMessage (start stop : Nat) : String :=
    Text.hex start ++ ".." ++ Text.hex stop ++ " is outside the output file"

/-! ## Parts -/

/-- Bytes written over an array from an offset on; what does not fit is dropped. -/
def overwrite : Bytes → Nat → Array UInt8 → Array UInt8
  | [], _, image => image
  | b :: bytes, offset, image => overwrite bytes (offset + 1) (image.setIfInBounds offset b)

/-- Puts bytes in place, if there is room for them. -/
def put? (image : Array UInt8) (offset : Nat) (bytes : Bytes) : Option (Array UInt8) :=
  if offset + bytes.length ≤ image.size then some (overwrite bytes offset image) else none

/-- `put?`, with the reason if there is no room. -/
def put (image : Array UInt8) (offset : Nat) (bytes : Bytes) :
    Except WriteError (Array UInt8) :=
  match put? image offset bytes with
  | some image => .ok image
  | none => .error (.outside offset (offset + bytes.length))

structure Part where
  offset : Nat
  bytes : Bytes
  deriving DecidableEq, Repr

/-- Puts parts in place, one after the other. -/
def putAll (image : Array UInt8) (parts : List Part) : Except WriteError (Array UInt8) :=
  parts.foldlM (fun image part => put image part.offset part.bytes) image

def Plan.fileHeader (p : Plan) : FileHeader :=
  { type := p.type, machine := Arm.Machine.elfMachine, flags := Arm.Machine.elfFlags,
    entry := p.entry, sectionHeaders := p.headersOffset, programHeaderCount := p.segments.length,
    sectionHeaderCount := p.sections.length, namesIndex := p.namesIndex }

/-- What stands before the first section, but for the build id. -/
def Plan.frontParts (p : Plan) : List Part :=
  [⟨0, p.fileHeader.bytes⟩, ⟨FileHeader.byteSize, p.segments.flatMap (·.bytes)⟩]
    ++ p.front.interpreter.toList.map fun (offset, path) => ⟨offset, path⟩

/-- The entry of a symbol at its place, but for the byte of its visibility, which is left as it
is. -/
def entryParts (offset : Nat) (e : SymbolEntry) : List Part :=
  [⟨offset, e.bytes.take SymbolEntry.visibilityOffset⟩,
    ⟨offset + SymbolEntry.visibilityOffset + 1, e.bytes.drop (SymbolEntry.visibilityOffset + 1)⟩]

/-- The symbols and their names. The first entry is left as it is. -/
def SymbolSection.parts (s : SymbolSection) : List Part :=
  (s.symbols.zipIdx 1).flatMap (fun (listed, index) =>
    entryParts (s.offset + index * SymbolEntry.byteSize) listed.entry)
    ++ [⟨s.namesOffset, s.names.bytes⟩]

/-- What stands behind the mapped part. -/
def Plan.tailParts (p : Plan) : List Part :=
  (p.relocations.map fun table => ⟨table.offset, table.entries.flatMap (·.bytes)⟩)
    ++ p.symbols.toList.flatMap (·.parts)
    ++ [⟨p.namesOffset, p.names.bytes⟩, ⟨p.headersOffset, p.sections.flatMap (·.bytes)⟩]

/-- What a note starts with. -/
def noteHeader (idSize : Nat) : Bytes :=
  Bytes.ofNat 4 noteName.length ++ Bytes.ofNat 4 idSize ++ Bytes.ofNat 4 3 ++ noteName

/-! ## Symbols -/

/-- Puts the bytes of a symbol in place. -/
def putSymbol (t : SymbolTable) (l : Layout) (image : Array UInt8) (id : SymbolId) :
    Except WriteError (Array UInt8) :=
  let s := t.get id
  if s.data.isEmpty then .ok image
  else
    match s.value with
    | none => .error .withoutAddress
    | some address =>
      match l.fileOffset? address with
      | none => .error (.notStored s.text address)
      | some offset =>
        match put? image offset s.data with
        | some image => .ok image
        | none => .error (.symbolOutside s.text offset (offset + s.data.length))

/-- The symbols of the sections that are stored in the file, section after section. -/
def storedSymbols (l : Layout) : List SymbolId :=
  (l.sections.filter fun s => s.type ≠ SectionType.noBits).flatMap (·.symbols)

/-- Puts the bytes of all symbols in place. -/
def putSymbols (t : SymbolTable) (l : Layout) (image : Array UInt8) :
    Except WriteError (Array UInt8) :=
  (storedSymbols l).foldlM (putSymbol t l) image

/-! ## The whole file -/

/-- The planned file as it starts: zeros. -/
def Plan.blank (p : Plan) : Array UInt8 := Array.replicate p.fileSize 0

/-- Random bytes marked as a random identifier, in two of its bytes. -/
def uuidOf (random : Bytes) : Bytes :=
  (random.modify 6 fun b => (b &&& 0x0f) ||| 0x40).modify 8 fun b => (b &&& 0x3f) ||| 0x80

/-- The bytes of the build id for a file that lacks nothing else. The random one is given. -/
def buildIdBytes (id : BuildId) (uuid : Bytes) (image : Array UInt8) : Bytes :=
  match id with
  | .none => []
  | .fast => Blake3.hash image.toList
  | .uuid => uuid
  | .bytes id => id

/-- The file up to the symbols. -/
def Plan.start (p : Plan) : Except WriteError (Array UInt8) := putAll p.blank p.frontParts

/-- The file with the symbols' bytes in place, completed but for the build id. -/
def Plan.complete (p : Plan) (image : Array UInt8) : Except WriteError (Array UInt8) := do
  let image ← putAll image p.tailParts
  match p.front.note with
  | none => return image
  | some (offset, idSize) => put image offset (noteHeader idSize)

/-- The file with the build id in place. -/
def Plan.identify (p : Plan) (id : Bytes) (image : Array UInt8) :
    Except WriteError (Array UInt8) :=
  match p.front.note with
  | none => .ok image
  | some (offset, _) => put image (offset + noteHeaderSize + noteName.length) id

/-- The bytes of the planned file. -/
def Plan.write (p : Plan) (t : SymbolTable) (l : Layout) (id : BuildId) (uuid : Bytes) :
    Except WriteError (Array UInt8) := do
  let image ← p.start
  let image ← putSymbols t l image
  let image ← p.complete image
  p.identify (buildIdBytes id uuid image) image

end ArmLink.Image
