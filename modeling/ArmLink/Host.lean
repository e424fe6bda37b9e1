import ArmLink.Bytes
import ArmLink.Report

/-!
# The surroundings of a link

A link reads object files, makes one output file, and tells about its progress. `Host` lists what it
needs for that, in a monad of the caller's choice; the rest of the link is plain computation.
-/

namespace ArmLink

/-- Why the file system refuses a request. -/
inductive FileFault where
  | missing
  /-- a directory was asked for its bytes -/
  | notMappable
  | notDirectory
  | isDirectory
  | tooLong
  /-- a path holds the character that ends paths -/
  | holdsNul
  | other (text : String)
  deriving DecidableEq, Repr

def FileFault.message : FileFault → String
  | missing => "No such file or directory (os error 2)"
  | notMappable => "No such device (os error 19)"
  | notDirectory => "Not a directory (os error 20)"
  | isDirectory => "Is a directory (os error 21)"
  | tooLong => "File name too long (os error 36)"
  | holdsNul => "file name contained an unexpected NUL byte"
  | other text => text

/-- The report of a refused request, given what was being done. -/
def FileFault.report (fault : FileFault) (doing : String) : Report :=
  ⟨.file, [doing, fault.message]⟩

/-- The phases of a link. -/
inductive Phase where
  | readInputs
  | mergeObject (path : String)
  | markReachable
  | setUpDynamic
  | lowerRelocations
  | addRelative
  | finishDynamic
  | layout
  | applyRelocations
  | writeSections
  | computeBuildId
  | unmapFile
  | writeFile
  | writeOutput
  | link
  deriving DecidableEq, Repr

namespace Phase

def text : Phase → String
  | readInputs => "Read inputs"
  | mergeObject path => s!"Merge object [path={path}]"
  | markReachable => "Mark reachable"
  | setUpDynamic => "Set up dynamic sections"
  | lowerRelocations => "Lower relocations"
  | addRelative => "Add relative relocations"
  | finishDynamic => "Finish dynamic sections"
  | layout => "Layout"
  | applyRelocations => "Apply relocations"
  | writeSections => "Write sections"
  | computeBuildId => "Compute build ID"
  | unmapFile => "Unmap output file"
  | writeFile => "Write output file"
  | writeOutput => "Write output"
  | link => "Link"

/-- How deeply a phase is nested in others. That everything is part of the link does not count. -/
def depth : Phase → Nat
  | writeSections | computeBuildId | unmapFile => 2
  | writeFile => 1
  | _ => 0

/-- The line that reports a phase, given how many milliseconds it took. -/
def line (p : Phase) (milliseconds : String) : String :=
  "".pushn ' ' (2 * p.depth) ++ milliseconds ++ " ms  " ++ p.text

end Phase

/-- A way to carry out the phases of a link. -/
structure Observer (m : Type → Type) where
  /-- carries out a phase, and tells that it has ended -/
  during : {α : Type} → Phase → m α → m α

/-- Nobody looks. -/
def Observer.silent {m : Type → Type} : Observer m := ⟨fun _ act => act⟩

/-- What a link asks of its surroundings. -/
structure Host (m : Type → Type) extends Observer m where
  read : String → m (Except FileFault Bytes)
  /-- makes an empty file in place of what is there -/
  create : String → m (Except FileFault Unit)
  /-- gives a file its bytes and makes it executable -/
  fill : String → Array UInt8 → m (Except FileFault Unit)
  /-- takes a file away, if it is there -/
  remove : String → m Unit
  /-- a fresh identifier of 16 bytes -/
  uuid : m Bytes
  warn : String → m Unit

end ArmLink
