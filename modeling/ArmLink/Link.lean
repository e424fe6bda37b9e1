import ArmLink.Dynamic.Finish
import ArmLink.Dynamic.Lower
import ArmLink.Host
import ArmLink.Image.Write
import ArmLink.Object.Reader
import ArmLink.SymbolTable.Merge
import ArmLink.SymbolTable.Reach
import ArmLink.Text.Utf8

/-!
# Links

A link takes object files to an output file:

* `collect` — one table of symbols, of which what is needed is kept;
* `makeDynamic`, `lower`, `finishDynamic` — tables for the dynamic loader, if it has work to do;
* `place` — addresses, and with them the values of relocations.

All that is `prepare`: plain computation, whose phases can be observed. `image` is the file that
comes of it.
-/

namespace ArmLink

inductive LinkError where
  | openInput (path : String) (fault : FileFault)
  | mapInput (path : String) (fault : FileFault)
  | decodeInput (path : String) (reason : Text.Utf8.DecodeError)
  | object (path : String) (reason : ObjectError)
  | merge (reason : MergeError)
  | stringVariable (reason : Report)
  | dynamic (reason : Report)
  | lower (reason : LowerError)
  | layout (reason : LayoutError)
  | resolve (reason : ResolveError)
  | plan (reason : Image.PlanError)
  | openOutput (path : String) (fault : FileFault)
  | write (reason : Image.WriteError)
  | fillOutput (path : String) (fault : FileFault)
  deriving DecidableEq, Repr

def LinkError.report : LinkError → Report
  | openInput path fault => fault.report s!"Failed to open input file `{path}`"
  | mapInput path fault => fault.report s!"Failed to mmap input file `{path}`"
  | decodeInput path reason => ⟨.encoding, [s!"Input file `{path}` is not UTF-8", reason.message]⟩
  | object path reason => reason.report path
  | merge reason => reason.report
  | stringVariable reason | dynamic reason => reason
  | lower reason => .plain reason.message
  | layout reason => .plain reason.message
  | resolve reason => reason.report
  | plan reason => .plain reason.message
  | openOutput path fault => fault.report s!"Failed to open `{path}`"
  | write reason => reason.report
  | fillOutput path fault => fault.report s!"Failed to write to {path}"

namespace Link

/-! ## Observed steps -/

variable {m : Type → Type} [Monad m]

/-- A step of a link that is a phase of its own. -/
def step (observer : Observer m) (phase : Phase) {α : Type}
    (compute : Unit → Except LinkError α) : ExceptT LinkError m α :=
  ExceptT.mk (observer.during phase (pure () >>= fun u => pure (compute u)))

/-- A step of a link that is no phase of its own. -/
def plainStep {α : Type} (result : Except LinkError α) : ExceptT LinkError m α :=
  ExceptT.mk (pure result)

/-! ## From objects to addresses -/

def readObject (path : String) : Except FileFault Bytes → Except LinkError Object
  | .error .notMappable => .error (.mapInput path .notMappable)
  | .error fault => .error (.openInput path fault)
  | .ok bytes =>
    match Text.Utf8.decode bytes with
    | .error reason => .error (.decodeInput path reason)
    | .ok text => (Object.ofText path text).mapError (.object path)

/-- Merges objects into a table, the first of which has the given index. -/
def mergeAll (observer : Observer m) :
    List Object → (index : Nat) → SymbolTable → ExceptT LinkError m SymbolTable
  | [], _, t => pure t
  | o :: rest, index, t => do
    let t ← step observer (.mergeObject o.path) fun _ =>
      (t.merge o index).mapError fun failure => .merge failure.error
    mergeAll observer rest (index + 1) t

/-- Sets string variables. Gives their symbols. -/
def addVariables :
    List (String × String) → SymbolTable → Except LinkError (List SymbolId × SymbolTable)
  | [], t => .ok ([], t)
  | (name, value) :: rest, t => do
    let (id, t) ←
      (t.addStringVariable name value).mapError fun failure => .stringVariable failure.error
    let (ids, t) ← addVariables rest t
    return (id :: ids, t)

/-- What is kept in any case: string variables, where the program starts, and what is exported. -/
def roots (o : Options) (settings : List SymbolId) (t : SymbolTable) : List SymbolId :=
  let entry :=
    match o.entry with
    | .symbol name => (t.find? name 0).toList
    | .address _ => []
  settings ++ entry ++ t.exported

/-- Makes the tables of the dynamic loader and lists what it has to find, if it has work to do. -/
def makeDynamic (observer : Observer m) (o : Options) (t : SymbolTable) :
    ExceptT LinkError m (Option DynamicTables × SymbolTable) :=
  if o.needsDynamic then do
    let (d, t) ← step observer .setUpDynamic fun _ =>
      (DynamicTables.setup t).mapError fun failure => .dynamic failure.error
    let (d, t) := d.exportSymbols t
    return (some d, t)
  else pure (none, t)

/-- Completes the tables of the dynamic loader. -/
def finishDynamic (observer : Observer m) (o : Options) (d? : Option DynamicTables)
    (t : SymbolTable) : ExceptT LinkError m SymbolTable :=
  match d? with
  | none => pure t
  | some d => do
    let (d, t) ←
      if o.isRelocatable then step observer .addRelative fun _ => .ok (d.addRelative t)
      else pure (d, t)
    step observer .finishDynamic fun _ => .ok (d.finish t o.runPath?).2

/-- What is known once symbols have addresses and relocations have values. -/
structure Placed where
  table : SymbolTable
  layout : Layout
  /-- the relocations that are left to a host linker -/
  relocations : List HostRelocation
  deriving Repr

/-- Gives addresses to symbols and values to relocations. -/
def place (observer : Observer m) (o : Options) (t : SymbolTable) :
    ExceptT LinkError m Placed := do
  let (layout, t) ← step observer .layout fun _ =>
    (Layout.compute t o.isRelocatable o.firstSectionIndex).mapError fun failure =>
      .layout failure.error
  let (table, relocations) ← step observer .applyRelocations fun _ =>
    (Resolve.apply t layout o.isExternal).mapError fun failure => .resolve failure.error
  return { table, layout, relocations }

/-- One table of symbols, in which what the output needs is marked. -/
def collectWith (observer : Observer m) (o : Options) (objects : List Object) :
    ExceptT LinkError m SymbolTable := do
  let t ← mergeAll observer objects 0 .initial
  let (settings, t) ← plainStep (addVariables o.stringVariables t)
  step observer .markReachable fun _ => .ok (t.markReachable (roots o settings t))

/-- From objects to addresses. -/
def prepareWith (observer : Observer m) (o : Options) (objects : List Object) :
    ExceptT LinkError m Placed := do
  let t ← collectWith observer o objects
  let (d?, t) ← makeDynamic observer o t
  let (d?, t) ← step observer .lowerRelocations fun _ =>
    (DynamicTables.lower o.isExternal d? t).mapError fun failure => .lower failure.error
  let t ← finishDynamic observer o d? t
  place observer o t

/-- `collectWith` with nobody looking. -/
def collect (o : Options) (objects : List Object) : Except LinkError SymbolTable :=
  (collectWith (m := Id) .silent o objects).run

/-- `prepareWith` with nobody looking. -/
def prepare (o : Options) (objects : List Object) : Except LinkError Placed :=
  (prepareWith (m := Id) .silent o objects).run

/-- The bytes of the output file. A random build id is given. -/
def image (o : Options) (p : Placed) (uuid : Bytes) : Except LinkError (Array UInt8) := do
  let plan ← (Image.plan p.table p.layout o p.relocations).mapError .plan
  (plan.write p.table p.layout o.buildId uuid).mapError .write

end Link

end ArmLink
