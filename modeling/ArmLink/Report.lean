/-!
# Reports of failures

Every failure of the linker is reported as a chain of messages: what was being done, then the
cause of its failure, down to the innermost cause. `Report.line` and `Report.page` are the two ways
to show a chain; its `category` says what lies at its root.
-/

namespace ArmLink

/-- What lies at the root of a failure, as far as a caller can tell causes apart. -/
inductive Category where
  | file
  | number
  | hexadecimal
  | encoding
  | shape
  | document
  | link
  deriving DecidableEq, Repr

/-- A failure as it is shown: messages from the outermost to the innermost cause. -/
structure Report where
  /-- what lies at the root -/
  category : Category
  /-- the messages, outermost first -/
  chain : List String
  deriving DecidableEq, Repr

namespace Report

/-- A report of a single message, of no special category. -/
def plain (message : String) : Report := ⟨.link, [message]⟩

/-- The report with a message put around it. -/
def within (r : Report) (message : String) : Report := { r with chain := message :: r.chain }

def line (r : Report) : String := ": ".intercalate r.chain

/-- A cause on lines of its own, behind a label; further lines stand below the text, not below the
label. -/
def indented (label margin cause : String) : List String :=
  match cause.splitOn "\n" with
  | [] => []
  | first :: rest => (label ++ first) :: rest.map (margin ++ ·)

/-- The number of a cause, aligned to the right. -/
def causeLabel (index : Nat) : String :=
  "".pushn ' ' (5 - (toString index).length) ++ s!"{index}: "

/-- Causes below a message, indented, and numbered if there are several. -/
def causes : List String → List String
  | [] => []
  | [cause] => "" :: "Caused by:" :: indented "    " "    " cause
  | several =>
    "" :: "Caused by:" :: several.zipIdx.flatMap fun (cause, i) =>
      indented (causeLabel i) "       " cause

/-- The outermost message, followed by its causes on lines of their own. -/
def page (r : Report) : List String :=
  match r.chain with
  | [] => []
  | message :: rest => message.splitOn "\n" ++ causes rest

end Report

/-- The error of an operation on a state of type `σ`, with the state as the failed operation left
it. -/
structure Failure (ε σ : Type) where
  error : ε
  /-- the state at that moment -/
  state : σ
  deriving Repr

end ArmLink
