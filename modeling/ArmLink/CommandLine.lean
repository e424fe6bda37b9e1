import ArmLink.Options.Parse
import ArmLink.Workspace

/-!
# The command line

Arguments in, a status and two streams of lines out. A failure is told on the error stream, behind
the name of the program, with its causes on lines of their own.
-/

namespace ArmLink.CommandLine

/-- The name that the program goes by. -/
def programName : String := "armld"

/-- What `--version` prints. -/
def versionLine : String := programName ++ " version 0.1.0"

def warningLine (message : String) : String := s!"WARNING: {programName}: {message}"

def failureLines (r : Report) : List String :=
  match r.page with
  | [] => [programName ++ ": error: "]
  | first :: rest => (programName ++ ": error: " ++ first) :: rest

structure Ending where
  status : Nat
  output : List String := []
  /-- lines for the error stream, after those of the link -/
  errors : List String := []
  deriving DecidableEq, Repr

def Ending.failed (r : Report) : Ending := { status := 1, errors := failureLines r }

/-- Does what the arguments ask for. -/
def run {m : Type → Type} [Monad m] (host : Host m) (arguments : List String) : m Ending := do
  match Options.parse arguments with
  | .error reason => return .failed reason.report
  | .ok .version => return { status := 0, output := [versionLine] }
  | .ok (.link o) =>
    match ← Link.run host o with
    | .ok () => return { status := 0 }
    | .error reason => return .failed reason.report

/-- The line of a notice, given how the duration of a phase is shown. -/
def noticeLine (duration : Phase → String) : Notice → String
  | .warning message => warningLine message
  | .phase phase => phase.line (duration phase)

/-- A run in a workspace: its ending with all lines of the error stream, and the workspace
afterwards. -/
def runIn (w : Workspace) (duration : Phase → String) (arguments : List String) :
    Ending × Workspace :=
  let (ending, s) := (run Workshop.host arguments).run { workspace := w }
  ({ ending with errors := s.notices.map (noticeLine duration) ++ ending.errors }, s.workspace)

end ArmLink.CommandLine
