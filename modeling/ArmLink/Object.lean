import ArmLink.Alignment
import ArmLink.Arm.Assemble
import ArmLink.Data.Value
import ArmLink.Symbol.Kind

/-!
# Object files

An object is a list of symbols and a list of imports. Its instructions are already machine code,
but symbols still refer to each other by name.
-/

namespace ArmLink

/-- A kind that an object file can give a symbol: what it lists, it defines. -/
abbrev DefinedKind := { kind : SymbolKind // kind ≠ .undefined }

structure ObjectSymbol where
  name : String
  kind : SymbolKind
  kind_ne_undefined : kind ≠ .undefined := by decide
  isLocal : Bool := false
  exported : Bool := false
  size : Nat
  alignment : Option Alignment := none
  value : Option Nat := none
  /-- the bytes at its start; the rest are zeros -/
  data : Bytes := []
  relocations : List (Relocation String) := []
  /-- the symbol that contains it, and its offset there -/
  outer : Option (String × Nat) := none
  deriving DecidableEq, Repr

structure ObjectImport where
  name : String
  library : Option String := none
  /-- the name in the library, if it is another one -/
  remote : Option String := none
  deriving DecidableEq, Repr

structure Object where
  path : String
  symbols : List ObjectSymbol
  imports : List ObjectImport
  deriving DecidableEq, Repr

/-- What is wrong with a symbol of an object file. -/
inductive SymbolFault where
  | severalContents
  | instructionsOutsideText
  | body (reason : Arm.AssembleError)
  | relocationSize (size : Nat)
  | relocationOutside
  | unknownRelocationType (name : String)
  | unknownRelocationKind (name : String)
  | containedContents (outer : String)
  | missingValue
  | unexpectedValue
  | alignment (reason : AlignmentError)
  deriving DecidableEq, Repr

def SymbolFault.report : SymbolFault → Report
  | severalContents => .plain "only one of `string`, `bytes` and `instructions` may be given"
  | instructionsOutsideText => .plain "instructions are only allowed in text symbols"
  | body reason => reason.report
  | relocationSize size => .plain s!"invalid relocation size {size}"
  | relocationOutside => .plain "relocation outside of symbol data"
  | unknownRelocationType name => .plain s!"unknown relocation type `{name}`"
  | unknownRelocationKind name => .plain s!"unknown relocation kind `{name}`"
  | containedContents outer =>
    .plain s!"a symbol contained in `{outer}` can't have contents of its own"
  | missingValue => .plain "constants need a `value`"
  | unexpectedValue => .plain "only constants may have a `value`"
  | alignment reason => .plain reason.message

inductive ObjectError where
  | notDocument
  | shape (reason : Data.ShapeError)
  | symbol (name : String) (fault : SymbolFault)
  deriving DecidableEq, Repr

def ObjectError.report (path : String) : ObjectError → Report
  | notDocument => ⟨.document, [s!"Failed to parse `{path}`"]⟩
  | shape reason =>
    match reason.message? with
    | some message => ⟨.shape, [s!"Failed to parse `{path}`", message]⟩
    | none => ⟨.document, [s!"Failed to parse `{path}`"]⟩
  | symbol name fault => fault.report.within s!"Failed to read symbol `{name}` in `{path}`"

end ArmLink
