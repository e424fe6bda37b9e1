import ArmLink.Object
import ArmLink.SymbolTable.Containment

/-!
# Merging of objects

Objects are merged into the symbol table one after the other. A symbol that is local to its file
gets a version that belongs to the file, and references within the file prefer it to a symbol of
the same name that all files see. A second definition of a symbol is accepted only if it is the
same as the first.
-/

namespace ArmLink

inductive MergeError where
  | reserved (symbol path : String)
  | duplicate (symbol path : String)
  | containment (path : String) (reason : ContainmentError)
  deriving DecidableEq, Repr

def MergeError.report : MergeError → Report
  | reserved symbol path =>
    .plain s!"duplicate definition of {symbol} in `{path}`: the name is reserved for the linker"
  | duplicate symbol path => .plain s!"duplicate definition of {symbol} in `{path}`"
  | containment path reason => (Report.plain reason.message).within s!"In `{path}`"

namespace SymbolTable

/-- The names that are local to an object. -/
def localNames (o : Object) : List String := (o.symbols.filter (·.isLocal)).map (·.name)

/-- The version of a name in the `index`th object: its own for the names that are local to it.
Versions have 32 bits. -/
def versionIn (o : Object) (index : Nat) (name : String) : Nat :=
  if (localNames o).contains name then (BitVec.ofNat 32 (index + 1)).toNat else 0

/-- Finds the symbols that relocations refer to by name, making those that are not there yet. -/
def bind (version : String → Nat) :
    SymbolTable → List (Relocation String) → List (Relocation SymbolId) × SymbolTable
  | t, [] => ([], t)
  | t, r :: rest =>
    let (r, t) : Relocation SymbolId × SymbolTable :=
      match r.target? with
      | some name =>
        let (id, t) := t.lookup name (version name)
        (r.map fun _ => id, t)
      | none => (r.map fun _ => 0, t)
    let (rest, t) := bind version t rest
    (r :: rest, t)

/-- Whether a definition says again what the table says of a symbol. -/
def repeats (s : Symbol) (o : ObjectSymbol) (relocations : List (Relocation SymbolId)) : Bool :=
  s.kind = o.kind && s.size = o.size && s.data = o.data && s.value = o.value &&
    s.relocations = relocations

/-- The symbol with the contents that an object gives it. -/
def define (o : ObjectSymbol) (relocations : List (Relocation SymbolId)) (s : Symbol) : Symbol :=
  { s with
    kind := o.kind
    exported := o.exported
    size := o.size
    alignment := o.alignment
    value := o.value
    data := o.data
    relocations
    importName := none
    importLibrary := none }

/-- A link of containment that is made once all symbols of the object are there. -/
structure PendingLink where
  sub : SymbolId
  outer : SymbolId
  offset : Nat
  deriving DecidableEq, Repr

def mergeSymbol (path : String) (version : String → Nat) (t : SymbolTable) (o : ObjectSymbol) :
    Except (Failure MergeError SymbolTable) (Option PendingLink × SymbolTable) :=
  let (id, t) := t.lookup o.name (version o.name)
  let (relocations, t) := bind version t o.relocations
  let s := t.get id
  if s.special then .error ⟨.reserved s.text path, t⟩
  else if s.isDefined && !s.isImport then
    if repeats s o relocations then .ok (none, t) else .error ⟨.duplicate s.text path, t⟩
  else
    let t := t.modify id (define o relocations)
    match o.outer with
    | some (name, offset) =>
      let (outer, t) := t.lookup name (version name)
      .ok (some ⟨id, outer, offset⟩, t)
    | none => .ok (none, t)

/-- Adds the definitions of an object, and collects the links between them. -/
def mergeSymbols (path : String) (version : String → Nat) :
    SymbolTable → List ObjectSymbol →
      Except (Failure MergeError SymbolTable) (List PendingLink × SymbolTable)
  | t, [] => .ok ([], t)
  | t, o :: rest => do
    let (link, t) ← mergeSymbol path version t o
    let (links, t) ← mergeSymbols path version t rest
    return (link.toList ++ links, t)

def mergeLinks (path : String) (t : SymbolTable) (links : List PendingLink) :
    Except (Failure MergeError SymbolTable) SymbolTable :=
  links.foldlM (fun t link =>
    (t.contain link.sub link.outer link.offset).mapError fun reason =>
      ⟨.containment path reason, t⟩) t

/-- Notes that a shared library provides a symbol, unless an object defines it. -/
def mergeImport (t : SymbolTable) (i : ObjectImport) : SymbolTable :=
  let (id, t) := t.lookup i.name 0
  t.modify id fun s =>
    if s.kind = .undefined ∨ s.kind = .hostObject then
      { s with kind := .dynamicImport, importName := i.remote, importLibrary := i.library }
    else s

/-- The table with all that the `index`th object says. -/
def merge (t : SymbolTable) (o : Object) (index : Nat) :
    Except (Failure MergeError SymbolTable) SymbolTable := do
  let (links, t) ← mergeSymbols o.path (versionIn o index) t o.symbols
  let t ← mergeLinks o.path t links
  return o.imports.foldl mergeImport t

/-! ## String variables -/

/-- The report of a variable whose name only the linker defines. -/
def reservedVariable (s : Symbol) : Report :=
  .plain s!"duplicate definition of {s.text}: the name is reserved for the linker"

/-- Makes `name` a pair of address and length that stands for `value`, whose bytes become the symbol
`name.str`. Whatever defined the two symbols before is forgotten. -/
def addStringVariable (t : SymbolTable) (name value : String) :
    Except (Failure Report SymbolTable) (SymbolId × SymbolTable) :=
  let bytes := Bytes.ofString value
  let (bytesId, t) := t.lookup (name ++ ".str") 0
  if (t.get bytesId).special then .error ⟨reservedVariable (t.get bytesId), t⟩
  else
    let t := t.modify bytesId fun s =>
      { s with kind := .readOnlyData, data := bytes, size := bytes.length, relocations := [] }
    let (id, t) := t.lookup name 0
    if (t.get id).special then .error ⟨reservedVariable (t.get id), t⟩
    else
      .ok (id, t.modify id fun s =>
        let cleared := { s with kind := .data, data := [], size := 0, relocations := [] }
        (cleared.appendPatched .absolute bytesId 0).appendWord (.ofNat 32 bytes.length))

end SymbolTable

end ArmLink
