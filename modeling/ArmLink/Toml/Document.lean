import ArmLink.Toml.Scalar
import ArmLink.Toml.Tree

/-!
# TOML documents

A document is a sequence of lines that each hold a key with its value, a header, or nothing; a
value may go on over several lines. `parse?` gives the table that a text describes, or `none` if
the text is no document.
-/

namespace ArmLink.Toml

open Data (Value)

/-- The elements of a list after its opening bracket, or after an element and its comma. -/
def elements (item : List Char → Option (Node × List Char)) :
    Nat → List Char → Option (List Value × List Char)
  | 0, _ => none
  | bound + 1, cs => do
    match ← skipLines cs.length cs with
    | ']' :: rest => return ([], rest)
    | cs =>
      let (node, rest) ← item cs
      match ← skipLines rest.length rest with
      | ',' :: rest =>
        let (values, rest) ← elements item bound rest
        return (node.value :: values, rest)
      | ']' :: rest => return ([node.value], rest)
      | _ => none

/-- A key and its value. `skip` takes away what may stand around the equals sign. -/
def entry (skip : List Char → Option (List Char)) (item : List Char → Option (Node × List Char))
    (cs : List Char) : Option (((List String × String) × Node) × List Char) := do
  let (path, rest) ← key cs
  let rest ← expect '=' (← skip rest)
  let (node, rest) ← item (← skip rest)
  return ((path, node), rest)

/-- The entries of a table in braces after the opening brace, or after an entry and its comma. -/
def entries (item : List Char → Option (Node × List Char)) :
    Nat → Node → List Char → Option (Node × List Char)
  | 0, _, _ => none
  | bound + 1, parent, cs => do
    match ← skipLines cs.length cs with
    | '\x7d' :: rest => return (parent, rest)
    | cs =>
      let (((path, name), node), rest) ← entry (fun cs => skipLines cs.length cs) item cs
      let parent ← parent.addDotted path name node
      match ← skipLines rest.length rest with
      | ',' :: rest => entries item bound parent rest
      | '\x7d' :: rest => return (parent, rest)
      | _ => none

/-- A value with brackets and braces nested at most `depth` deep. -/
def nested : Nat → List Char → Option (Node × List Char)
  | _, '"' :: rest => do
    let (s, rest) ← string ('"' :: rest)
    return (.leaf (.string s), rest)
  | _, '\x27' :: rest => do
    let (s, rest) ← string ('\x27' :: rest)
    return (.leaf (.string s), rest)
  | depth + 1, '[' :: rest => do
    let (values, rest) ← elements (nested depth) rest.length rest
    return (.leaf (.list values), rest)
  | depth + 1, '\x7b' :: rest => entries (nested depth) rest.length (.table .braces []) rest
  | _, cs => do
    let (v, rest) ← scalar cs
    return (.leaf v, rest)

/-- A document under construction. -/
structure Draft where
  root : Node
  /-- the header that was opened last -/
  header : List String

/-- A header after its opening brackets, and the draft with its table. -/
def header (double : Bool) (draft : Draft) (cs : List Char) : Option (Draft × List Char) := do
  let ((path, name), rest) ← key (skipBlanks cs)
  let rest ← expect ']' (skipBlanks rest)
  let rest ← if double then expect ']' rest else some rest
  let root ← if double then draft.root.addElement path name else draft.root.addHeader path name
  return (⟨root, path ++ [name]⟩, rest)

/-- A key with its value, and the draft with that entry. -/
def keyValue (draft : Draft) (cs : List Char) : Option (Draft × List Char) := do
  let (((path, name), node), rest) ← entry (some ∘ skipBlanks) (nested deepest) cs
  let root ← draft.root.within draft.header (·.addDotted path name node)
  return ({ draft with root }, rest)

/-- One line of a document, or several if its value goes on. -/
def expression (draft : Draft) (cs : List Char) : Option (Draft × List Char) :=
  match cs with
  | '[' :: '[' :: rest => header true draft rest
  | '[' :: rest => header false draft rest
  | _ => keyValue draft cs

/-- The lines of a document. -/
def expressions : Nat → Draft → List Char → Option Draft
  | 0, draft, cs => if cs.isEmpty then some draft else none
  | bound + 1, draft, cs => do
    let cs ← skipLines cs.length cs
    if cs.isEmpty then return draft
    let (draft, rest) ← expression draft cs
    let rest ← skipComment (skipBlanks rest)
    if rest.isEmpty then return draft
    expressions bound draft (← lineEnd? rest)

/-- The table that a text describes, if it is a document. A byte order mark at its start is skipped.
-/
def parse? (text : String) : Option Value := do
  let cs :=
    match text.toList with
    | '\ufeff' :: rest => rest
    | cs => cs
  let draft ← expressions (cs.length + 1) ⟨.table .header [], []⟩ cs
  return draft.root.value

end ArmLink.Toml
