import ArmLink.Data.Value

/-!
# Typed reading of structured data

A `Reader α` finds an `α` in a value or says why there is none. Which of several mismatches is
reported follows one rule: the entries of a table are looked at in the order of their names, and
only after all of them is a missing field reported, in the order in which the fields are declared.

* `Fields` — the fields of a record. They are combined applicatively, and know how to be read from
  a table by name and from a list by position;
* `choice` — a value that is one of several named alternatives.
-/

namespace ArmLink.Data

/-- A way to find an `α` in a value. -/
abbrev Reader (α : Type) := Dialect → Value → Except ShapeError α

namespace Reader

/-- A whole number with `low ≤ n < high`. -/
def integer (low high : Int) : Reader Int
  | d, .integer n =>
    if low ≤ n ∧ n < high then .ok n
    else if Value.isInteger64 n then .error (.wrongValue (.integer n))
    else .error (Value.unexpected d (.integer n))
  | d, v => .error (v.unexpected d)

/-- An unsigned number of `bits` bits. -/
def unsigned (bits : Nat) : Reader Nat := fun d v => Int.toNat <$> integer 0 (Nat.pow 2 bits) d v

/-- A signed number of `bits` bits. -/
def signed (bits : Nat) : Reader Int := integer (-(Nat.pow 2 (bits - 1))) (Nat.pow 2 (bits - 1))

def boolean : Reader Bool
  | _, .boolean b => .ok b
  | d, v => .error (v.unexpected d)

def string : Reader String
  | _, .string s => .ok s
  | d, v => .error (v.unexpected d)

def list {α : Type} (item : Reader α) : Reader (List α)
  | d, .list items => items.mapM (item d)
  | d, v => .error (v.unexpected d)

def option {α : Type} (some? : Reader α) : Reader (Option α)
  | _, .null => .ok none
  | d, v => some <$> some? d v

end Reader

/-! ## Records -/

/-- The fields of a record from which an `α` is made. -/
structure Fields (α : Type) where
  /-- the names of the fields in the order of their declaration, each with a check of its value -/
  slots : List (String × Reader Unit)
  /-- the record, from the values of the fields that are there -/
  collect : Dialect → (absent : String → ShapeError) → (String → Option Value) →
    Except ShapeError α

namespace Fields

variable {α β : Type}

/-- A field that must be there. -/
def required (name : String) (read : Reader α) : Fields α where
  slots := [(name, fun d v => do let _ ← read d v)]
  collect d absent values :=
    match values name with
    | some v => read d v
    | none => .error (absent name)

/-- A field that is `otherwise` unless it is there. -/
def withDefault (name : String) (read : Reader α) (otherwise : α) : Fields α where
  slots := [(name, fun d v => do let _ ← read d v)]
  collect d _ values :=
    match values name with
    | some v => read d v
    | none => .ok otherwise

/-- A field that may be left out. -/
def optional (name : String) (read : Reader α) : Fields (Option α) :=
  withDefault name read.option none

instance : Functor Fields where
  map f fs := ⟨fs.slots, fun d absent values => f <$> fs.collect d absent values⟩

instance : Applicative Fields where
  pure a := ⟨[], fun _ _ _ => .ok a⟩
  seq fs gs :=
    ⟨fs.slots ++ (gs ()).slots, fun d absent values => do
      let f ← fs.collect d absent values
      let a ← (gs ()).collect d absent values
      return f a⟩

/-- Checks the entries of a table, one after the other. An entry that is no field is refused if
`strict`, and otherwise skipped. -/
def check (fs : Fields α) (strict : Bool) (d : Dialect) :
    List (String × Value) → Except ShapeError Unit
  | [] => .ok ()
  | (name, v) :: rest => do
    match fs.slots.lookup name with
    | some slot => slot d v
    | none =>
      if strict then .error (.unknownField name)
      else if !v.representable then .error .other
    fs.check strict d rest

/-- The record in a table. -/
def ofEntries (fs : Fields α) (strict : Bool) (d : Dialect) (entries : List (String × Value)) :
    Except ShapeError α := do
  fs.check strict d (entries.mergeSort fun a b => a.1 ≤ b.1)
  fs.collect d .missingField fun name => entries.lookup name

/-- The record in a list, field by field. JSON refuses a list that is too long. -/
def ofItems (fs : Fields α) (d : Dialect) (items : List Value) : Except ShapeError α := do
  let entries := (fs.slots.map (·.1)).zip items
  fs.check false d entries
  let a ← fs.collect d (fun _ => .other) fun name => entries.lookup name
  if d = .json ∧ fs.slots.length < items.length then .error .other else return a

/-- The name under which a date is found where a table is expected. -/
def dateTimeKey : String := "$__toml_private_datetime"

/-- The record in a value. -/
def read (fs : Fields α) (strict : Bool) : Reader α
  | d, .table entries => fs.ofEntries strict d entries
  | d, .dateTime => fs.ofEntries strict d [(dateTimeKey, .null)]
  | d, .list items => fs.ofItems d items
  | d, v => .error (v.unexpected d)

end Fields

/-! ## Alternatives -/

/-- What stands behind the name of an alternative. -/
inductive Variant (α : Type) where
  | unit (a : α)
  | value (read : Reader α)
  | fields (fs : Fields α)

namespace Variant

variable {α : Type}

/-- The alternative given by its name alone. -/
def ofName : Variant α → Except ShapeError α
  | unit a => .ok a
  | value _ | fields _ => .error (.wrongType .unitVariant)

/-- The alternative given by its name and contents. -/
def ofContents (d : Dialect) (contents : Value) : Variant α → Except ShapeError α
  | unit a =>
    match d, contents with
    | .json, .null | .toml, .list [] | .toml, .table [] => .ok a
    | .json, v => .error (v.unexpected d)
    | .toml, _ => .error .other
  | value read => read d contents
  | fields fs =>
    match d, contents with
    | .json, .table entries => fs.ofEntries false d entries
    | .json, v => .error (v.unexpected d)
    | .toml, .table entries =>
      if entries.all fun (name, _) => (fs.slots.lookup name).isSome then
        fs.ofEntries false d entries
      else .error .other
    | .toml, v => fs.read false d v

end Variant

/-- One of several named alternatives: its name, or a table with its name as the only key. -/
def choice {α : Type} (variants : List (String × Variant α)) : Reader α
  | _, .string name =>
    match variants.lookup name with
    | some variant => variant.ofName
    | none => .error (.unknownVariant name)
  | d, .table [(name, contents)] =>
    match variants.lookup name with
    | some variant => variant.ofContents d contents
    | none => .error (.unknownVariant name)
  | .json, .table _ => .error (.wrongValue .map)
  | .json, v => .error (v.unexpected .json)
  | .toml, _ => .error .other

end ArmLink.Data
