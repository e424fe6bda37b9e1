import ArmLink.Link.Run

/-!
# Workspaces

A directory of files that is kept in memory, and a host that links in it. Directories are there as
far as files lie in them. A path is followed step by step from the workspace's own directory, or
from the top of the file system. Outside of the workspace there are only the directories above it.
-/

namespace ArmLink

structure StoredFile where
  bytes : Bytes
  executable : Bool := false
  deriving DecidableEq, Repr

/-- A directory of files. -/
structure Workspace where
  /-- the files by the steps that lead to them -/
  files : List (List String × StoredFile)
  deriving DecidableEq, Repr

namespace Workspace

/-- What steps lead to. -/
inductive Entry where
  | file (f : StoredFile)
  | directory
  deriving DecidableEq, Repr

/-- The top of the file system. -/
def top : List String := ["/"]

/-- Whether steps lead to the workspace's own directory or to one above it. -/
def isAbove (steps : List String) : Bool := steps = top || steps.all (· = "..")

/-- What steps lead to, if anything. -/
def entry? (w : Workspace) (steps : List String) : Option Entry :=
  match w.files.lookup steps with
  | some f => some (.file f)
  | none =>
    if isAbove steps ∨ w.files.any (fun (path, _) => steps.isPrefixOf path) then some .directory
    else none

/-- Where a step leads from a directory. Nothing is above the top. -/
def enter (steps : List String) (name : String) : List String :=
  if name = "." ∨ name = ".." ∧ steps = top then steps
  else if name = ".." ∧ !isAbove steps then steps.dropLast
  else steps ++ [name]

/-- A name has at most this many bytes. -/
def longestName : Nat := 255

/-- A path has at most this many bytes. -/
def longestPath : Nat := 4095

/-- Follows names from a place on. All but the last place have to be directories. -/
def follow (w : Workspace) : List String → (names : List String) → Except FileFault (List String)
  | steps, [] => .ok steps
  | steps, name :: rest =>
    match w.entry? steps with
    | none => .error .missing
    | some (.file _) => .error .notDirectory
    | some .directory =>
      if longestName < name.utf8ByteSize then .error .tooLong
      else w.follow (enter steps name) rest

def names (path : String) : List String := (path.splitOn "/").filter (· ≠ "")

/-- The steps to what a path names, whether or not there is anything. -/
def locate (w : Workspace) (path : String) : Except FileFault (List String) :=
  if path.contains '\x00' then .error .holdsNul
  else if longestPath < path.utf8ByteSize then .error .tooLong
  else if path = "" then .error .missing
  else w.follow (if path.startsWith "/" then top else []) (names path)

/-- Whether a path says that it names a directory. -/
def namesDirectory (path : String) : Bool := path.endsWith "/"

/-- The file or directory that a path names. -/
def find? (w : Workspace) (path : String) : Except FileFault Entry := do
  let steps ← w.locate path
  match w.entry? steps with
  | none => .error .missing
  | some (.file f) => if namesDirectory path then .error .notDirectory else .ok (.file f)
  | some .directory => .ok .directory

def has (w : Workspace) (path : String) : Bool := (w.find? path).toOption.isSome

def read (w : Workspace) (path : String) : Except FileFault Bytes := do
  match ← w.find? path with
  | .file f => .ok f.bytes
  | .directory => .error .notMappable

/-- The workspace with a file put at the end of some steps. -/
def store (w : Workspace) (steps : List String) (f : StoredFile) : Workspace :=
  ⟨w.files.filter (·.1 ≠ steps) ++ [(steps, f)]⟩

/-- The workspace with an empty file in place of what a path names. -/
def create (w : Workspace) (path : String) : Except FileFault Workspace := do
  let steps ← w.locate path
  if namesDirectory path ∨ w.entry? steps = some .directory then .error .isDirectory
  else .ok (w.store steps ⟨[], false⟩)

/-- The workspace with a file filled and made executable. -/
def fill (w : Workspace) (path : String) (image : Array UInt8) : Except FileFault Workspace := do
  let steps ← w.locate path
  return w.store steps ⟨image.toList, true⟩

def remove (w : Workspace) (path : String) : Workspace :=
  match w.locate path with
  | .ok steps => if namesDirectory path then w else ⟨w.files.filter (·.1 ≠ steps)⟩
  | .error _ => w

/-- The workspace of some files. -/
def ofFiles (files : List (String × Bytes)) : Workspace :=
  ⟨files.map fun (path, bytes) => (names path, ⟨bytes, false⟩)⟩

end Workspace

/-! ## Links in a workspace -/

/-- What a link tells while it runs. -/
inductive Notice where
  | warning (message : String)
  | phase (phase : Phase)
  deriving DecidableEq, Repr

/-- The state of a link in a workspace. -/
structure Workshop where
  workspace : Workspace
  notices : List Notice := []
  deriving DecidableEq, Repr

namespace Workshop

def tell (notice : Notice) : StateM Workshop Unit :=
  modify fun s => { s with notices := s.notices ++ [notice] }

/-- Changes the files, unless that is refused. -/
def change (request : Workspace → Except FileFault Workspace) :
    StateM Workshop (Except FileFault Unit) := do
  let s ← get
  match request s.workspace with
  | .ok workspace =>
    set { s with workspace }
    return .ok ()
  | .error fault => return .error fault

/-- A host that links in a workspace. Its identifiers are zeros. -/
def host : Host (StateM Workshop) where
  during phase act := do
    let result ← act
    tell (.phase phase)
    return result
  read path := do return (← get).workspace.read path
  create path := change (·.create path)
  fill path image := change (·.fill path image)
  remove path := modify fun s => { s with workspace := s.workspace.remove path }
  uuid := return Bytes.zeros 16
  warn message := tell (.warning message)

end Workshop

/-- A link in a workspace: its result, and the workspace afterwards. -/
def Link.runIn (w : Workspace) (o : Options) : Except LinkError Unit × Workspace :=
  let (result, s) := (Link.run Workshop.host o).run { workspace := w }
  (result, s.workspace)

end ArmLink
