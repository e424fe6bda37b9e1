import ArmLink.Text.Number

/-!
# Lexical elements of TOML

Blanks, comments and line ends, strings in their four forms, and keys. A scanner takes the text
that is left and gives what it found with the rest, or `none` if the text does not start with what
it looks for. Scanners that repeat themselves carry a bound, for which the length of the text is
always enough.
-/

namespace ArmLink.Toml

/-- Spaces and tabs. -/
def isBlank (c : Char) : Bool := c = ' ' || c = '\t'

/-- Characters that comments and strings may hold as they are: all but control characters. -/
def isPlain (c : Char) : Bool := c = '\t' || (' ' ≤ c && c ≠ '\x7f')

/-- The text without the blanks at its start. -/
def skipBlanks (cs : List Char) : List Char := cs.dropWhile isBlank

/-- The text after the end of a line. -/
def lineEnd? : List Char → Option (List Char)
  | '\n' :: rest => some rest
  | '\r' :: '\n' :: rest => some rest
  | _ => none

/-- The text after a comment, if there is one; a comment holds no control characters. -/
def skipComment : List Char → Option (List Char)
  | '#' :: rest =>
    let after := rest.dropWhile isPlain
    if after.isEmpty || (lineEnd? after).isSome then some after else none
  | cs => some cs

/-- The text after all blanks, comments and line ends at its start. -/
def skipLines : Nat → List Char → Option (List Char)
  | 0, cs => some cs
  | bound + 1, cs => do
    let cs ← skipComment (skipBlanks cs)
    match lineEnd? cs with
    | some rest => skipLines bound rest
    | none => return cs

/-! ## Strings -/

/-- The character with a code of `n` hexadecimal digits. -/
def codedChar (n : Nat) (cs : List Char) : Option (Char × List Char) := do
  let digits ← (cs.take n).mapM (Text.digit? 16)
  if digits.length = n then
    let code := digits.foldl (fun acc d => acc * 16 + d) 0
    if code.isValidChar then return (Char.ofNat code, cs.drop n) else none
  else none

/-- What stands after a backslash. -/
def escaped : List Char → Option (Char × List Char)
  | 'b' :: rest => some ('\x08', rest)
  | 't' :: rest => some ('\t', rest)
  | 'n' :: rest => some ('\n', rest)
  | 'f' :: rest => some ('\x0c', rest)
  | 'r' :: rest => some ('\r', rest)
  | 'e' :: rest => some ('\x1b', rest)
  | '"' :: rest => some ('"', rest)
  | '\\' :: rest => some ('\\', rest)
  | 'x' :: rest => codedChar 2 rest
  | 'u' :: rest => codedChar 4 rest
  | 'U' :: rest => codedChar 8 rest
  | _ => none

/-- A string in double quotes, after the first quote. -/
def basicString : Nat → List Char → Option (List Char × List Char)
  | 0, _ => none
  | bound + 1, cs =>
    match cs with
    | '"' :: rest => some ([], rest)
    | '\\' :: rest => do
      let (c, rest) ← escaped rest
      let (text, rest) ← basicString bound rest
      return (c :: text, rest)
    | c :: rest => do
      if isPlain c then
        let (text, rest) ← basicString bound rest
        return (c :: text, rest)
      else none
    | [] => none

/-- A string in single quotes, after the first quote. -/
def literalString : List Char → Option (List Char × List Char)
  | '\x27' :: rest => some ([], rest)
  | c :: rest => do
    if isPlain c then
      let (text, rest) ← literalString rest
      return (c :: text, rest)
    else none
  | [] => none

/-- The end of a string of several lines: three quotes, before which up to two more may stand. -/
def closing? (mark : Char) (cs : List Char) : Option (List Char × List Char) :=
  let quotes := min 5 (cs.takeWhile (· = mark)).length
  if 3 ≤ quotes then some (List.replicate (quotes - 3) mark, cs.drop quotes) else none

/-- The text after all blanks and line ends at its start. -/
def skipFold : Nat → List Char → List Char
  | 0, cs => cs
  | bound + 1, cs =>
    let cs := skipBlanks cs
    match lineEnd? cs with
    | some rest => skipFold bound rest
    | none => cs

/-- A string of several lines in double quotes, after the opening. A backslash at the end of a line
takes away all blanks and line ends up to the next text. -/
def longBasicString : Nat → List Char → Option (List Char × List Char)
  | 0, _ => none
  | bound + 1, cs =>
    match closing? '"' cs with
    | some found => some found
    | none => do
      match cs with
      | '\\' :: rest =>
        match lineEnd? (skipBlanks rest) with
        | some next => longBasicString bound (skipFold next.length next)
        | none =>
          let (c, rest) ← escaped rest
          let (text, rest) ← longBasicString bound rest
          return (c :: text, rest)
      | '\r' :: '\n' :: rest =>
        let (text, rest) ← longBasicString bound rest
        return ('\r' :: '\n' :: text, rest)
      | c :: rest =>
        if isPlain c || c = '\n' then
          let (text, rest) ← longBasicString bound rest
          return (c :: text, rest)
        else none
      | [] => none

/-- A string of several lines in single quotes, after the opening. -/
def longLiteralString : Nat → List Char → Option (List Char × List Char)
  | 0, _ => none
  | bound + 1, cs =>
    match closing? '\x27' cs with
    | some found => some found
    | none => do
      match cs with
      | '\r' :: '\n' :: rest =>
        let (text, rest) ← longLiteralString bound rest
        return ('\r' :: '\n' :: text, rest)
      | c :: rest =>
        if isPlain c || c = '\n' then
          let (text, rest) ← longLiteralString bound rest
          return (c :: text, rest)
        else none
      | [] => none

/-- The text of a string of several lines starts after a line end that follows the opening. -/
def afterOpening (cs : List Char) : List Char := (lineEnd? cs).getD cs

/-- A string in any form; `none` also if the text starts with no quote. -/
def string (cs : List Char) : Option (String × List Char) := do
  let (text, rest) ←
    match cs with
    | '"' :: '"' :: '"' :: rest => longBasicString cs.length (afterOpening rest)
    | '"' :: rest => basicString cs.length rest
    | '\x27' :: '\x27' :: '\x27' :: rest => longLiteralString cs.length (afterOpening rest)
    | '\x27' :: rest => literalString rest
    | _ => none
  return (String.ofList text, rest)

/-! ## Keys -/

/-- Characters of keys that are not quoted. -/
def isBare (c : Char) : Bool := c.isAlphanum || c = '_' || c = '-'

/-- One part of a key: bare, or a string on one line. -/
def simpleKey (cs : List Char) : Option (String × List Char) :=
  match cs with
  | '"' :: '"' :: '"' :: _ => none
  | '\x27' :: '\x27' :: '\x27' :: _ => none
  | '"' :: _ | '\x27' :: _ => string cs
  | _ =>
    let name := cs.takeWhile isBare
    if name.isEmpty then none else some (String.ofList name, cs.dropWhile isBare)

/-- The parts of a key that follow its first part, each after a dot. -/
def moreKeys : Nat → List Char → Option (List String × List Char)
  | 0, _ => none
  | bound + 1, cs => do
    match skipBlanks cs with
    | '.' :: rest =>
      let (name, rest) ← simpleKey (skipBlanks rest)
      let (names, rest) ← moreKeys bound rest
      return (name :: names, rest)
    | _ => return ([], cs)

/-- Keys have at most this many parts, and brackets and braces nest at most this deep. -/
def deepest : Nat := 80

/-- A key: its parts but the last, and the last. -/
def key (cs : List Char) : Option ((List String × String) × List Char) := do
  let (first, rest) ← simpleKey cs
  let (names, rest) ← moreKeys cs.length rest
  let parts := first :: names
  if parts.length ≤ deepest then return ((parts.dropLast, parts.getLastD first), rest) else none

end ArmLink.Toml
