import ArmLink.Options

/-!
# The command line

Short options take their value from the next argument. Long options are written with one or two
dashes, and their value follows an equals sign or is the next argument. All that does not start
with a dash is an input.

* `Argument.classify` — what an argument is by itself;
* `Setting.apply` — what an option with a value does;
* `parse` — what a whole command line asks for.
-/

namespace ArmLink

/-- Why a command line cannot be followed. -/
inductive OptionsError where
  | missingValue (option : String)
  | badEntry (value : String) (reason : Text.NumberError)
  | badBuildIdBytes (digits : String) (reason : Text.HexError)
  | badBuildId (value : String)
  | badLinkMode (value : String)
  | badVariable (definition : String)
  | badArchitecture (name : String)
  | badThreads (reason : Text.NumberError)
  | noHelp
  | unrecognised (arguments : List String)
  | staticRelocatable
  deriving DecidableEq, Repr

def OptionsError.report : OptionsError → Report
  | missingValue option => .plain s!"Missing argument to {option}"
  | badEntry value reason =>
    ⟨.number, [s!"Invalid numeric entry point `{value}`", reason.message]⟩
  | badBuildIdBytes digits reason =>
    ⟨.hexadecimal, [s!"Invalid Hex Build Id `0x{digits}`", reason.message]⟩
  | badBuildId value =>
    .plain (s!"Invalid build-id value `{value}` valid values are `none`, `fast`, `md5`, `sha1`, "
      ++ "`uuid` and `0x<hex>`")
  | badLinkMode value =>
    .plain s!"Unknown link mode `{value}`, expected `internal` or `external`"
  | badVariable definition => .plain s!"-X expects name=value, got `{definition}`"
  | badArchitecture name => .plain s!"-m {name} is not yet supported"
  | badThreads reason => ⟨.number, [reason.message]⟩
  | noHelp => .plain "Sorry, help isn't implemented yet"
  | unrecognised arguments =>
    .plain ("Unrecognised argument(s): "
      ++ " ".intercalate (arguments.map fun argument => "`" ++ argument ++ "`"))
  | staticRelocatable => .plain "-pie requires a dynamic executable, but -d was given"

/-- The part of the options that the order of flags decides, before they are put together. -/
structure Draft where
  /-- the options, up to the kind of the output -/
  options : Options := {}
  isDynamic : Bool := true
  anywhere : Bool := false
  /-- arguments that look like options and are none -/
  unrecognised : List String := []
  deriving DecidableEq, Repr

/-- An option that has a value. -/
inductive Setting where
  | output | entry | runPath | dynamicLinker | buildId | linkMode | stringVariable | architecture
  | threads
  deriving DecidableEq, Repr

/-- An option without a value. -/
inductive Flag where
  | stripAll | static | dynamic | relocatable | notRelocatable | fastBuildId | reportPhases
  | anyThreads | oneThread
  deriving DecidableEq, Repr

inductive Argument where
  /-- an option whose value is the next argument -/
  | takes (setting : Setting)
  | sets (setting : Setting) (value : String)
  | flag (flag : Flag)
  | version
  | help
  /-- something that looks like an option and is none -/
  | unrecognised
  | input
  deriving DecidableEq, Repr

namespace Argument

/-- Short options whose value is the next argument. -/
def shortSettings : List (String × Setting) :=
  [("-o", .output), ("-E", .entry), ("-e", .entry), ("-r", .runPath), ("-I", .dynamicLinker),
   ("-B", .buildId), ("-X", .stringVariable), ("-m", .architecture)]

/-- Short options without a value. -/
def shortFlags : List (String × Argument) :=
  [("-s", .flag .stripAll), ("-d", .flag .static), ("-v", .version)]

/-- Long options that may take their value from the next argument. -/
def longSettings : List (String × Setting) :=
  [("entry", .entry), ("rpath", .runPath), ("dynamic-linker", .dynamicLinker),
   ("linkmode", .linkMode)]

/-- Long options whose value stands behind an equals sign. -/
def longAssignments : List (String × Setting) :=
  longSettings ++ [("build-id", .buildId), ("threads", .threads), ("thread-count", .threads)]

/-- Long options without a value. -/
def longFlags : List (String × Argument) :=
  [("strip-all", .flag .stripAll), ("static", .flag .static), ("dynamic", .flag .dynamic),
   ("pie", .flag .relocatable), ("no-pie", .flag .notRelocatable),
   ("build-id", .flag .fastBuildId), ("time", .flag .reportPhases),
   ("threads", .flag .anyThreads), ("no-threads", .flag .oneThread), ("version", .version),
   ("help", .help)]

/-- The name of a long option, without its one or two dashes. -/
def longName? (argument : String) : Option String :=
  match argument.toList with
  | '-' :: '-' :: name => some (String.ofList name)
  | '-' :: name => some (String.ofList name)
  | _ => none

/-- The text before and behind the first equals sign, if there is one. -/
def splitEquals? (text : String) : Option (String × String) :=
  match text.toList.dropWhile (· ≠ '=') with
  | _ :: value => some (String.ofList (text.toList.takeWhile (· ≠ '=')), String.ofList value)
  | [] => none

def classifyLong? (name : String) : Option Argument :=
  (longSettings.lookup name).map takes <|> longFlags.lookup name <|> do
    let (option, value) ← splitEquals? name
    let setting ← longAssignments.lookup option
    return sets setting value

/-- The architecture may stand right behind its option. -/
def attached? (argument : String) : Option Argument :=
  match argument.toList with
  | '-' :: 'm' :: name => some (sets .architecture (String.ofList name))
  | _ => none

/-- What an argument is by itself. -/
def classify (argument : String) : Argument :=
  let known := (shortSettings.lookup argument).map takes <|> shortFlags.lookup argument <|>
    (longName? argument).bind classifyLong? <|> attached? argument
  match known with
  | some found => found
  | none =>
    match argument.toList with
    | '-' :: _ :: _ => unrecognised
    | _ => input

end Argument

/-- The entry point: an address if it starts with a digit, else a symbol. -/
def readEntry (value : String) : Except OptionsError EntryPoint :=
  match value.toList with
  | c :: cs =>
    if c.isDigit then
      let number :=
        match c, cs with
        | '0', 'x' :: digits | '0', 'X' :: digits => Text.readDigits 16 addressSpace digits
        | _, _ => Text.readDigits 10 addressSpace (c :: cs)
      (number.map EntryPoint.address).mapError (.badEntry value)
    else .ok (.symbol value)
  | [] => .ok (.symbol value)

def readBuildId (value : String) : Except OptionsError BuildId :=
  if value = "none" then .ok .none
  else if value = "fast" ∨ value = "md5" ∨ value = "sha1" then .ok .fast
  else if value = "uuid" then .ok .uuid
  else
    match value.toList with
    | '0' :: 'x' :: digits | '0' :: 'X' :: digits =>
      let digits := String.ofList digits
      ((Text.readBytes digits).map BuildId.bytes).mapError (.badBuildIdBytes digits)
    | _ => .error (.badBuildId value)

def readLinkMode (value : String) : Except OptionsError LinkMode :=
  if value = "internal" ∨ value = "auto" then .ok .internal
  else if value = "external" then .ok .external
  else .error (.badLinkMode value)

/-- A string variable and its value. -/
def readVariable (definition : String) : Except OptionsError (String × String) :=
  match Argument.splitEquals? definition with
  | some (name, value) =>
    if name.isEmpty then .error (.badVariable definition) else .ok (name, value)
  | none => .error (.badVariable definition)

def readThreads (value : String) : Except OptionsError Nat :=
  match Text.readDigits 10 addressSpace value.toList with
  | .ok 0 => .error (.badThreads .zero)
  | .ok n => .ok n
  | .error reason => .error (.badThreads reason)

/-- What an option with a value does. -/
def Setting.apply (value : String) (d : Draft) : Setting → Except OptionsError Draft
  | output => .ok { d with options.output := value }
  | entry => do return { d with options.entry := ← readEntry value }
  | runPath => .ok { d with options.runPaths := d.options.runPaths ++ [value] }
  | dynamicLinker => .ok { d with options.dynamicLinker := some value }
  | buildId => do return { d with options.buildId := ← readBuildId value }
  | linkMode => do return { d with options.mode := ← readLinkMode value }
  | stringVariable => do
    let definition ← readVariable value
    return { d with options.stringVariables := d.options.stringVariables ++ [definition] }
  | architecture =>
    if value = "armelf_linux_eabi" ∨ value = "armelf" then .ok d
    else .error (.badArchitecture value)
  | threads => do return { d with options.threads := some (← readThreads value) }

/-- What an option without a value does. -/
def Flag.apply (d : Draft) : Flag → Draft
  | stripAll => { d with options.stripAll := true }
  | static => { d with isDynamic := false }
  | dynamic => { d with isDynamic := true }
  | relocatable => { d with anywhere := true }
  | notRelocatable => { d with anywhere := false }
  | fastBuildId => { d with options.buildId := .fast }
  | reportPhases => { d with options.reportPhases := true }
  | anyThreads => { d with options.threads := none }
  | oneThread => { d with options.threads := some 1 }

/-- What a command line asks for. -/
inductive Action where
  | link (options : Options)
  | version
  deriving DecidableEq, Repr

/-- The options that a complete command line amounts to. -/
def Draft.finish (d : Draft) : Except OptionsError Options :=
  if !d.unrecognised.isEmpty then .error (.unrecognised d.unrecognised)
  else if !d.isDynamic && d.anywhere then .error .staticRelocatable
  else
    let kind : OutputKind :=
      if !d.isDynamic then .static else if d.anywhere then .relocatable else .dynamic
    .ok { d.options with outputKind := kind }

/-- Follows the arguments one after the other. A question for the version ends it at once. -/
def Draft.follow (d : Draft) : List String → Except OptionsError Action
  | [] => do return .link (← d.finish)
  | argument :: rest =>
    match Argument.classify argument with
    | .takes setting =>
      match rest with
      | value :: rest => do Draft.follow (← setting.apply value d) rest
      | [] => .error (.missingValue argument)
    | .sets setting value => do Draft.follow (← setting.apply value d) rest
    | .flag flag => Draft.follow (flag.apply d) rest
    | .version => .ok .version
    | .help => .error .noHelp
    | .unrecognised =>
      Draft.follow { d with unrecognised := d.unrecognised ++ [argument] } rest
    | .input => Draft.follow { d with options.inputs := d.options.inputs ++ [argument] } rest

/-- What a command line asks for. -/
def Options.parse (arguments : List String) : Except OptionsError Action :=
  Draft.follow {} arguments

end ArmLink
