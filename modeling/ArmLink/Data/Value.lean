import ArmLink.Decimal.Shortest
import ArmLink.Text.Quoted

/-!
# Structured data

Objects and instructions are written as structured data: scalars, lists and tables. `Value` is what
a document says, before anything is known about what it ought to say.
-/

namespace ArmLink.Data

/-- The two notations in which data is written. They agree on most shapes; where they do not, the
readers look at the dialect. -/
inductive Dialect where
  | toml
  | json
  deriving DecidableEq, Repr

inductive Real where
  | finite (negative : Bool) (magnitude : Binary64)
  | infinite (negative : Bool)
  | nan
  deriving DecidableEq, Repr

def Real.text (dialect : Dialect) : Real → String
  | .finite negative x =>
    (if negative then "-" else "") ++
      match dialect with
      | .toml => (x.shortest .upward).positional
      | .json => (x.shortest .toEven).scientific
  | .infinite negative => if negative then "-inf" else "inf"
  | .nan => "NaN"

inductive Value where
  | null
  | boolean (b : Bool)
  | integer (n : Int)
  | real (x : Real)
  /-- a number that no numeric type can hold -/
  | unrepresentable
  | string (s : String)
  | dateTime
  | list (items : List Value)
  | table (entries : List (String × Value))
  deriving Repr, Inhabited

/-- What was found where something else was expected. -/
inductive Found where
  | null
  | boolean (b : Bool)
  | integer (n : Int)
  /-- a whole number that needs 128 bits -/
  | wideInteger (n : Int)
  /-- a floating point number, as it is shown -/
  | real (text : String)
  | string (s : String)
  | sequence
  | map
  /-- the bare name of an alternative that needs contents -/
  | unitVariant
  deriving DecidableEq, Repr

def Found.text : Found → String
  | null => "null"
  | boolean b => s!"boolean `{b}`"
  | integer n => s!"integer `{n}`"
  | wideInteger n =>
    s!"integer `{n}` as " ++ if n < 0x80000000000000000000000000000000 then "i128" else "u128"
  | real text => s!"floating point `{text}`"
  | string s => "string " ++ Text.quoted s
  | sequence => "sequence"
  | map => "map"
  | unitVariant => "unit variant"

/-- Why data does not have the expected shape. -/
inductive ShapeError where
  | missingField (name : String)
  | unknownField (name : String)
  | unknownVariant (name : String)
  | wrongType (found : Found)
  | wrongValue (found : Found)
  | unknownSuffix (name : String)
  /-- any other mismatch; it has no text of its own -/
  | other
  deriving DecidableEq, Repr

/-- What was found, in words, if there are any for it. -/
def ShapeError.finding? : ShapeError → Option String
  | missingField name => some s!"missing field `{name}`"
  | unknownField name => some s!"unknown field `{name}`"
  | unknownVariant name => some s!"unknown variant `{name}`"
  | wrongType found => some ("invalid type: " ++ found.text)
  | wrongValue found => some ("invalid value: " ++ found.text)
  | unknownSuffix name => some s!"unknown instruction suffix `{name}`"
  | other => none

/-- The words with which an account of what was expected starts. -/
def expectation : String := ", expected"

/-- The reason in words, if it has any. It ends where an account of what was expected starts, be it
within a text that was found. -/
def ShapeError.message? (e : ShapeError) : Option String :=
  e.finding?.map fun finding => (finding.splitOn expectation).headD finding

namespace Value

/-- A whole number of 64 bits, signed or unsigned. -/
def isInteger64 (n : Int) : Bool := -0x8000000000000000 ≤ n && n < 0x10000000000000000

/-- A whole number of 128 bits, signed or unsigned. -/
def isInteger128 (n : Int) : Bool :=
  -0x80000000000000000000000000000000 ≤ n && n < 0x100000000000000000000000000000000

/-- The error of finding this value where another type is expected. -/
def unexpected (dialect : Dialect) : Value → ShapeError
  | null => .wrongType .null
  | boolean b => .wrongType (.boolean b)
  | integer n =>
    if isInteger64 n then .wrongType (.integer n)
    else if isInteger128 n then .wrongType (.wideInteger n)
    else .other
  | real x => .wrongType (.real (x.text dialect))
  | unrepresentable => .other
  | string s => .wrongType (.string s)
  | list _ => .wrongType .sequence
  | dateTime | table _ => .wrongType .map

mutual

/-- Whether every number inside a value can be held by some numeric type. -/
def representable : Value → Bool
  | unrepresentable => false
  | integer n => isInteger128 n
  | list items => representableItems items
  | table entries => representableEntries entries
  | _ => true

/-- `representable` for the items of a list. -/
def representableItems : List Value → Bool
  | [] => true
  | v :: rest => representable v && representableItems rest

/-- `representable` for the entries of a table. -/
def representableEntries : List (String × Value) → Bool
  | [] => true
  | (_, v) :: rest => representable v && representableEntries rest

end

end Value

end ArmLink.Data
