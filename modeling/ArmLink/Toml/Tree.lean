import ArmLink.Data.Value

/-!
# Tables under construction

A document defines its tables bit by bit. Whether a table may still grow depends on where it came
from, so that nodes remember their origin until the document is complete:

* a table of a header takes entries below its header only, and no second header;
* a table that a header only passed through may get a header of its own later;
* a table that a dotted key made grows by further dotted keys;
* a table in braces never grows.
-/

namespace ArmLink.Toml

open Data (Value)

inductive Origin where
  /-- its own header; also the whole document -/
  | header
  /-- a header of a table below it -/
  | passed
  | dotted
  | braces
  deriving DecidableEq, Repr

/-- A part of a document under construction. -/
inductive Node where
  | leaf (value : Value)
  | table (origin : Origin) (entries : List (String × Node))
  /-- a list of tables that headers in double brackets made, the last one first -/
  | tables (elements : List Node)
  deriving Inhabited

namespace Node

mutual

/-- The value that a node stands for. -/
def value : Node → Value
  | leaf v => v
  | table _ entries => .table (entryValues entries)
  | tables elements => .list (elementValues elements).reverse

/-- The values of entries. -/
def entryValues : List (String × Node) → List (String × Value)
  | [] => []
  | (name, node) :: rest => (name, node.value) :: entryValues rest

/-- The values of elements. -/
def elementValues : List Node → List Value
  | [] => []
  | node :: rest => node.value :: elementValues rest

end

/-- Entries with the one of a name replaced, or added at the end. -/
def putEntry (name : String) (node : Node) : List (String × Node) → List (String × Node)
  | [] => [(name, node)]
  | (other, old) :: rest =>
    if other = name then (name, node) :: rest else (other, old) :: putEntry name node rest

/-- Changes the table at the end of a path, making tables on the way where there are none. `made`
is the origin of tables made, and of tables that are met on the way only those that `admits`
admits may be changed. -/
def descend (made : Origin) (admits : Origin → Bool) (change : Node → Option Node) :
    List String → Node → Option Node
  | [], node => change node
  | name :: path, table origin entries => do
    let next ←
      match entries.lookup name with
      | none => descend made admits change path (table made [])
      | some (table inner below) =>
        if admits inner then descend made admits change path (table inner below) else none
      | some (tables (last :: before)) =>
        (descend made admits change path last).map fun last => tables (last :: before)
      | some _ => none
    return table origin (putEntry name next entries)
  | _, _ => none

/-- Adds an entry to a table that has none of that name. -/
def addEntry (parent : Node) (name : String) (node : Node) : Option Node :=
  match parent with
  | table origin entries =>
    if (entries.lookup name).isSome then none else some (table origin (putEntry name node entries))
  | _ => none

/-- Adds an entry at the end of a dotted key. Tables with a header of their own, and tables that
headers passed through, do not take entries of dotted keys. -/
def addDotted (parent : Node) (path : List String) (name : String) (node : Node) : Option Node :=
  match path with
  | [] => parent.addEntry name node
  | _ =>
    let admits (origin : Origin) : Bool := origin = .passed || origin = .dotted
    let add (target : Node) : Option Node :=
      match target with
      | table .dotted _ => target.addEntry name node
      | _ => none
    descend .dotted admits add path parent

/-- Whether a header may pass through a table. -/
def headerAdmits (origin : Origin) : Bool := origin ≠ .braces

/-- Makes the table of a header in single brackets. -/
def addHeader (path : List String) (name : String) (root : Node) : Option Node :=
  let opened (parent : Node) : Option Node :=
    match parent with
    | table origin entries =>
      match entries.lookup name with
      | none => some (table origin (putEntry name (table .header []) entries))
      | some (table .passed below) =>
        some (table origin (putEntry name (table .header below) entries))
      | some _ => none
    | _ => none
  descend .passed headerAdmits opened path root

/-- Makes one more table of a header in double brackets. -/
def addElement (path : List String) (name : String) (root : Node) : Option Node :=
  let opened (parent : Node) : Option Node :=
    match parent with
    | table origin entries =>
      match entries.lookup name with
      | none => some (table origin (putEntry name (tables [table .header []]) entries))
      | some (tables elements) =>
        some (table origin (putEntry name (tables (table .header [] :: elements)) entries))
      | some _ => none
    | _ => none
  descend .passed headerAdmits opened path root

/-- Changes the table that was opened last, whose header was `path`. -/
def within (path : List String) (change : Node → Option Node) (root : Node) : Option Node :=
  descend .passed (fun _ => true) change path root

end Node

end ArmLink.Toml
