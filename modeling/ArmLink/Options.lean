import ArmLink.Arm.Machine
import ArmLink.Layout.Compute

/-!
# Options of a link

What the command line asks for, and what follows from it.
-/

namespace ArmLink

/-- Where the program starts. -/
inductive EntryPoint where
  | symbol (name : String)
  | address (value : Nat)
  deriving DecidableEq, Repr

/-- Which build id is written. -/
inductive BuildId where
  | none
  | fast
  | uuid
  | bytes (id : Bytes)
  deriving DecidableEq, Repr

/-- Who finishes the link. -/
inductive LinkMode where
  | internal
  /-- a host linker, for which an object file is written -/
  | external
  deriving DecidableEq, Repr

/-- What is written if this linker finishes the link. -/
inductive OutputKind where
  /-- an executable that needs no dynamic loader -/
  | static
  /-- an executable that a dynamic loader loads at a fixed address -/
  | dynamic
  /-- an executable that a dynamic loader loads anywhere -/
  | relocatable
  deriving DecidableEq, Repr

structure Options where
  inputs : List String := []
  output : String := "a.out"
  entry : EntryPoint := .symbol "_start"
  dynamicLinker : Option String := none
  /-- how many threads may be used, if that was said -/
  threads : Option Nat := none
  stripAll : Bool := false
  reportPhases : Bool := false
  runPaths : List String := []
  buildId : BuildId := .none
  mode : LinkMode := .internal
  /-- string variables and their values, in the order given -/
  stringVariables : List (String × String) := []
  outputKind : OutputKind := .dynamic
  deriving DecidableEq, Repr

namespace Options

/-- Whether a host linker finishes the link. -/
def isExternal (o : Options) : Bool := o.mode = .external

/-- Whether tables for the dynamic loader are made. -/
def needsDynamic (o : Options) : Bool := !o.isExternal && o.outputKind ≠ .static

/-- Whether the output may be loaded anywhere. -/
def isRelocatable (o : Options) : Bool := o.outputKind = .relocatable

/-- The dynamic loader that the output asks for. -/
def interpreter? (o : Options) : Option String :=
  if o.needsDynamic then some (o.dynamicLinker.getD Arm.Machine.defaultInterpreter) else none

/-- Where the dynamic loader looks for libraries, as one text. -/
def runPath? (o : Options) : Option String :=
  if o.runPaths.isEmpty then none else some (":".intercalate o.runPaths)

/-- The number of bytes of the build id, if there is one. Object files for a host linker have
none. -/
def buildIdSize? (o : Options) : Option Nat :=
  if o.isExternal then none
  else
    match o.buildId with
    | .none => none
    | .fast => some 32
    | .uuid => some 16
    | .bytes id => some id.length

/-- The index of the header of the first section of the layout. Before it are the empty header, and
those of the dynamic loader's path and the build id if they are written. -/
def firstSectionIndex (o : Options) : Nat :=
  1 + (if o.interpreter?.isSome then 1 else 0) + (if o.buildIdSize?.isSome then 1 else 0)

/-- The address of the first section. -/
def textStart (o : Options) : Nat := Layout.textStartOf o.isRelocatable

end Options

end ArmLink
