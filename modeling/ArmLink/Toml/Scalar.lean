import ArmLink.Data.Value
import ArmLink.Toml.Lexeme

/-!
# Numbers, dates and truth values of TOML

A scalar that is no string is a run of characters up to a blank, a line end or a mark; only a date
may be followed by a blank and a time. The whole run must have one of the forms below. Whole numbers
are looked at twice: a document may hold one whose digits are none, as long as its underscores stand
in their places, and only a reader that needs the number sees that there is none.
-/

namespace ArmLink.Toml

open Data (Value Real)

/-! ## Numbers -/

/-- Whether each underscore has a digit before it and behind it. `before` tells whether a digit
stands before the text. -/
def dividesDigitsAfter (isDigit : Char → Bool) : (before : Bool) → List Char → Bool
  | _, [] => true
  | before, '_' :: rest =>
    before && (rest.head?.map isDigit).getD false && dividesDigitsAfter isDigit false rest
  | _, c :: rest => dividesDigitsAfter isDigit (isDigit c) rest

/-- Whether each underscore in the text of a number without its sign stands between digits. -/
def dividesDigits (isDigit : Char → Bool) (cs : List Char) : Bool :=
  dividesDigitsAfter isDigit false cs

def undivided (cs : List Char) : List Char := cs.filter (· ≠ '_')

/-- The values of digits, of which there is at least one. -/
def digits (base : Nat) (cs : List Char) : Option (List Nat) :=
  if cs.isEmpty then none else cs.mapM (Text.digit? base)

def ofDigits (base : Nat) (ds : List Nat) : Nat := ds.foldl (fun acc d => acc * base + d) 0

/-- Whether there is a minus sign, and the text without its sign. -/
def sign : List Char → Bool × List Char
  | '+' :: rest => (false, rest)
  | '-' :: rest => (true, rest)
  | cs => (false, cs)

/-- Whether a character is a digit of some base. -/
def isAnyDigit (c : Char) : Bool := (Text.digit? 16 c).isSome

/-- A whole number of a base other than ten, after the mark of its base. -/
def markedInteger (base : Nat) (cs : List Char) : Option Value :=
  if cs.all (fun c => c = '_' || (Text.digit? base c).isSome) &&
      dividesDigits isAnyDigit cs then
    match digits base (undivided cs) with
    | some ds => some (.integer (ofDigits base ds))
    | none => some .unrepresentable
  else none

/-- A decimal whole number after its sign. -/
def decimalInteger (negative : Bool) (cs : List Char) : Option Value :=
  if cs ≠ ['0'] ∧ cs.head? = some '0' then none
  else if dividesDigits isAnyDigit cs then
    match digits 10 (undivided cs) with
    | some ds =>
      let n : Int := ofDigits 10 ds
      some (.integer (if negative then -n else n))
    | none => some .unrepresentable
  else none

/-- The exponent of a floating point number after its mark. -/
def exponent (cs : List Char) : Option Int := do
  let (negative, cs) := sign cs
  let n : Int := ofDigits 10 (← digits 10 cs)
  return if negative then -n else n

/-- Whether a character marks an exponent. -/
def isExponentMark (c : Char) : Bool := c = 'e' || c = 'E'

/-- A floating point number after its sign. -/
def decimalReal (negative : Bool) (cs : List Char) : Option Value := do
  if !dividesDigits Char.isDigit cs then none
  let text := undivided cs
  let mantissa := text.takeWhile (!isExponentMark ·)
  let power ←
    match text.dropWhile (!isExponentMark ·) with
    | _ :: rest => exponent rest
    | [] => some 0
  let whole ← digits 10 (mantissa.takeWhile (· ≠ '.'))
  if cs.head? = some '0' ∧ whole.length ≠ 1 then none
  let places ←
    match mantissa.dropWhile (· ≠ '.') with
    | _ :: rest => digits 10 rest
    | [] => some []
  match Binary64.ofDecimal? (ofDigits 10 (whole ++ places)) (power - places.length) with
  | some x => return .real (.finite negative x)
  | none => return .unrepresentable

/-! ## Dates and times -/

/-- A number of exactly `n` digits. -/
def fixedNumber (n : Nat) (cs : List Char) : Option (Nat × List Char) := do
  let digits ← (cs.take n).mapM (Text.digit? 10)
  if digits.length = n then return (ofDigits 10 digits, cs.drop n) else none

/-- The rest of a text that starts with the given character. -/
def expect (c : Char) : List Char → Option (List Char)
  | d :: rest => if c = d then some rest else none
  | [] => none

/-- The number of days of a month. -/
def daysIn (year month : Nat) : Nat :=
  if month = 2 then
    if year % 4 = 0 ∧ (year % 100 ≠ 0 ∨ year % 400 = 0) then 29 else 28
  else if month = 4 ∨ month = 6 ∨ month = 9 ∨ month = 11 then 30
  else 31

/-- A date; gives the rest. -/
def date (cs : List Char) : Option (List Char) := do
  let (year, cs) ← fixedNumber 4 cs
  let (month, cs) ← fixedNumber 2 (← expect '-' cs)
  let (day, cs) ← fixedNumber 2 (← expect '-' cs)
  if 1 ≤ month ∧ month ≤ 12 ∧ 1 ≤ day ∧ day ≤ daysIn year month then return cs else none

/-- A fraction of a second, if there is one; gives the rest. -/
def fraction : List Char → Option (List Char)
  | '.' :: rest =>
    if (rest.takeWhile Char.isDigit).isEmpty then none else some (rest.dropWhile Char.isDigit)
  | cs => some cs

/-- A time of day, in which the seconds may be missing; gives the rest. -/
def time (cs : List Char) : Option (List Char) := do
  let (hour, cs) ← fixedNumber 2 cs
  let (minute, cs) ← fixedNumber 2 (← expect ':' cs)
  let (second, cs) ←
    match cs with
    | ':' :: rest =>
      let (second, cs) ← fixedNumber 2 rest
      pure (second, ← fraction cs)
    | _ => pure (0, cs)
  if hour ≤ 23 ∧ minute ≤ 59 ∧ second ≤ 60 then return cs else none

/-- The distance from universal time, if it is given; nothing may follow. -/
def zone (cs : List Char) : Option Unit := do
  match cs with
  | [] | ['Z'] | ['z'] => return ()
  | c :: rest =>
    if c = '+' ∨ c = '-' then
      let (hour, rest) ← fixedNumber 2 rest
      let (minute, rest) ← fixedNumber 2 (← expect ':' rest)
      if hour ≤ 23 ∧ minute ≤ 59 ∧ rest.isEmpty then return () else none
    else none

/-- A date, a time, or both. -/
def dateTime (cs : List Char) : Option Value := do
  match date cs with
  | some [] => return .dateTime
  | some (c :: rest) =>
    if c = 'T' ∨ c = 't' ∨ c = ' ' then
      zone (← time rest)
      return .dateTime
    else none
  | none => if (← time cs).isEmpty then return .dateTime else none

/-! ## Scalars -/

/-- A number, date or time. What follows the first digits tells which: a dash or colon makes a date
or time, a point or the mark of an exponent a floating point number, and underscores a whole
number. -/
def number (run : List Char) : Option Value :=
  let (negative, cs) := sign run
  match cs.dropWhile Char.isDigit with
  | '-' :: _ | ':' :: _ => dateTime run
  | [] => if cs.isEmpty then none else decimalInteger negative cs
  | c :: rest =>
    if (c :: rest).any (fun c => c = '.' || isExponentMark c) then decimalReal negative cs
    else if c = '_' then decimalInteger negative cs
    else none

/-- What a run of characters stands for. -/
def ofRun (run : List Char) : Option Value :=
  match run with
  | ['t', 'r', 'u', 'e'] => some (.boolean true)
  | ['f', 'a', 'l', 's', 'e'] => some (.boolean false)
  | '0' :: 'x' :: cs => markedInteger 16 cs
  | '0' :: 'o' :: cs => markedInteger 8 cs
  | '0' :: 'b' :: cs => markedInteger 2 cs
  | _ =>
    match sign run with
    | (negative, ['i', 'n', 'f']) => some (.real (.infinite negative))
    | (_, ['n', 'a', 'n']) => some (.real .nan)
    | _ => number run

/-- Characters of scalars that are no strings, after the first one. -/
def isScalar (c : Char) : Bool :=
  !([' ', '\t', '\r', '\n', '#', ',', '=', '[', ']', '\x7b', '\x7d'].contains c)

/-- The run of characters that makes up a scalar. A date may be followed by a blank and a time. -/
def scalarRun (cs : List Char) : List Char × List Char :=
  let run := cs.takeWhile isScalar
  match date run, cs.drop run.length with
  | some [], ' ' :: c :: rest =>
    if c.isDigit then
      let tail := (c :: rest).takeWhile isScalar
      (run ++ ' ' :: tail, (c :: rest).drop tail.length)
    else (run, ' ' :: c :: rest)
  | _, after => (run, after)

/-- A scalar that is no string. -/
def scalar (cs : List Char) : Option (Value × List Char) := do
  let (run, rest) := scalarRun cs
  return (← ofRun run, rest)

end ArmLink.Toml
