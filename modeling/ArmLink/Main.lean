import ArmLink.CommandLine

/-!
# The program

The command line on the files of the system. Nothing is decided here: the system's answers are put
into the words of `Host`.
-/

namespace ArmLink.Program

/-- Why the system refuses a request. -/
def faultOf : IO.Error → FileFault
  | .noFileOrDirectory _ _ _ => .missing
  | .inappropriateType _ 20 _ => .notDirectory
  | .inappropriateType _ _ _ => .isDirectory
  | e => .other (toString e)

/-- A request to the system, with its refusal as a value. -/
def request {α : Type} (act : IO α) : IO (Except FileFault α) := do
  try
    return .ok (← act)
  catch e =>
    return .error (faultOf e)

/-- A duration in milliseconds, with two places, aligned to the right. -/
def milliseconds (nanoseconds : Nat) : String :=
  let hundredths := (nanoseconds + 5000) / 10000
  let places := toString (hundredths % 100)
  let text := s!"{hundredths / 100}." ++ "".pushn '0' (2 - places.length) ++ places
  "".pushn ' ' (9 - text.length) ++ text

/-- Everyone may read and run the file, its owner may write it too. -/
def executableRights : IO.FileRight where
  user := { read := true, write := true, execution := true }
  group := { read := true, execution := true }
  other := { read := true, execution := true }

/-- The host that works on the files of the system. -/
def host : Host IO where
  during phase act := do
    let start ← IO.monoNanosNow
    let result ← act
    let stop ← IO.monoNanosNow
    IO.eprintln (phase.line (milliseconds (stop - start)))
    return result
  read path := do
    match ← request (IO.FS.readBinFile path) with
    | .ok bytes => return .ok bytes.toList
    | .error .isDirectory => return .error .notMappable
    | .error fault => return .error fault
  create path := do
    let _ ← request (IO.FS.removeFile path)
    request (IO.FS.writeBinFile path .empty)
  fill path image := request do
    IO.FS.writeBinFile path ⟨image⟩
    IO.setAccessRights path executableRights
  remove path := do
    let _ ← request (IO.FS.removeFile path)
  uuid := do return Image.uuidOf (← IO.getRandomBytes 16).toList
  warn message := IO.eprintln (CommandLine.warningLine message)

end ArmLink.Program

def main (arguments : List String) : IO UInt32 := do
  let ending ← ArmLink.CommandLine.run ArmLink.Program.host arguments
  for line in ending.output do
    IO.println line
  for line in ending.errors do
    IO.eprintln line
  return .ofNat ending.status
