import ArmLink.Bytes
import ArmLink.Text.Quoted

/-!
# Numbers in text

Reading and writing of the numbers that stand in options and messages.

* `hex`, `signedHex` — lower case hexadecimal digits, a negative number as its 64-bit two's
  complement;
* `readDigits` — an unsigned number in a given base, with the reason why a text is not one;
* `readBytes` — a byte string written as pairs of hexadecimal digits.
-/

namespace ArmLink.Text

/-- The hexadecimal digits of a number. -/
def digits16 (n : Nat) : String := String.ofList (Nat.toDigits 16 n)

/-- A number in hexadecimal, marked by `0x`. -/
def hex (n : Nat) : String := "0x" ++ digits16 n

/-- A 64-bit number in hexadecimal, marked by `0x`, negative ones as their two's complement. -/
def signedHex (n : Int) : String := hex (BitVec.ofInt 64 n).toNat

/-- Two hexadecimal digits for a byte. -/
def hexByte (b : UInt8) : List Char :=
  [Nat.digitChar (b.toNat / 16), Nat.digitChar (b.toNat % 16)]

/-- Two hexadecimal digits for each byte. -/
def hexBytes (bs : Bytes) : String := String.ofList (bs.flatMap hexByte)

/-- The eight hexadecimal digits of a word, most significant first. -/
def hexWord (w : Word) : String := hexBytes (Bytes.ofWord w).reverse

/-- Why a text is not a number of the wanted kind. -/
inductive NumberError where
  | empty
  | badDigit
  | tooLarge
  | zero
  deriving DecidableEq, Repr

def NumberError.message : NumberError → String
  | .empty => "cannot parse integer from empty string"
  | .badDigit => "invalid digit found in string"
  | .tooLarge => "number too large to fit in target type"
  | .zero => "number would be zero for non-zero type"

/-- The value of a digit, of either case, in a base up to 36. -/
def digit? (base : Nat) (c : Char) : Option Nat :=
  let value :=
    if '0' ≤ c ∧ c ≤ '9' then some (c.toNat - '0'.toNat)
    else if 'a' ≤ c ∧ c ≤ 'z' then some (c.toNat - 'a'.toNat + 10)
    else if 'A' ≤ c ∧ c ≤ 'Z' then some (c.toNat - 'A'.toNat + 10)
    else none
  value.filter (· < base)

/-- Reads digits from the left onto `acc`. The first digit that is none, or with which the number
reaches `bound`, is the reason for failure. -/
def accumulate (base bound : Nat) : Nat → List Char → Except NumberError Nat
  | acc, [] => .ok acc
  | acc, c :: cs =>
    match digit? base c with
    | none => .error .badDigit
    | some d =>
      if acc * base + d < bound then accumulate base bound (acc * base + d) cs
      else .error .tooLarge

/-- An unsigned number below `bound`, with an optional plus sign. -/
def readDigits (base bound : Nat) (s : List Char) : Except NumberError Nat :=
  match s with
  | [] => .error .empty
  | ['+'] => .error .badDigit
  | '+' :: cs => accumulate base bound 0 cs
  | cs => accumulate base bound 0 cs

/-- Why a text is not a byte string in hexadecimal. -/
inductive HexError where
  | oddLength
  | badDigit (byte : UInt8) (position : Nat)
  deriving DecidableEq, Repr

/-- The reason in words. A byte is shown as the character of its number. -/
def HexError.message : HexError → String
  | .oddLength => "Odd number of digits"
  | .badDigit byte position =>
    "Invalid character " ++ quotedChar (Char.ofNat byte.toNat) ++ s!" at position {position}"

/-- Pairs of digits, the first of which stands at `position`. -/
def readPairs : Nat → Bytes → Except HexError Bytes
  | position, a :: b :: rest => do
    let digit (byte : UInt8) (place : Nat) : Except HexError Nat :=
      match digit? 16 (Char.ofNat byte.toNat) with
      | some d => .ok d
      | none => .error (.badDigit byte place)
    let high ← digit a position
    let low ← digit b (position + 1)
    return UInt8.ofNat (high * 16 + low) :: (← readPairs (position + 2) rest)
  | _, _ => .ok []

/-- A byte string written as pairs of hexadecimal digits. -/
def readBytes (s : String) : Except HexError Bytes :=
  let text := Bytes.ofString s
  if text.length % 2 = 0 then readPairs 0 text else .error .oddLength

end ArmLink.Text
