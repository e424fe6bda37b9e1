import ArmLink.Text.Printable

/-!
# Quoted text in messages

Messages show names and characters between quotes, with escapes for what would not be readable:
the quote itself and the backslash, tab, newline, return and NUL by a letter, and every character
that has no visible form of its own by its code point.
-/

namespace ArmLink.Text

/-- A character by its code point, `\u\x7b...\x7d`. -/
def codePoint (c : Char) : List Char :=
  ['\\', 'u', '\x7b'] ++ Nat.toDigits 16 c.toNat ++ ['\x7d']

/-- How a character is written between two `mark`s. -/
def escape (mark c : Char) : List Char :=
  match c with
  | '\x00' => ['\\', '0']
  | '\t' => ['\\', 't']
  | '\r' => ['\\', 'r']
  | '\n' => ['\\', 'n']
  | '\\' => ['\\', '\\']
  | _ =>
    if c = mark then ['\\', c]
    else if isExtender c then codePoint c
    else if isPrintable c then [c]
    else codePoint c

/-- A text between double quotes. -/
def quoted (s : String) : String :=
  String.ofList ('"' :: s.toList.flatMap (escape '"') ++ ['"'])

/-- A character between single quotes. -/
def quotedChar (c : Char) : String :=
  String.ofList ('\x27' :: escape '\x27' c ++ ['\x27'])

end ArmLink.Text
