/-!
# 32-bit words and their bit fields

An A32 instruction is a 32-bit word cut into fields. A field is named by the half-open range
`[lo, hi)` of its bit positions, with bit 0 the least significant one:

* `Word.field` reads a field, moved down to bit 0;
* `Word.withField` replaces a field by the low bits of another word and keeps every other bit;
* `Word.signedField` reads a field that starts at bit 0 as a two's complement number.
-/

namespace ArmLink

/-- A 32-bit word: an instruction, a literal, or a field of one. -/
abbrev Word := BitVec 32

namespace Word

/-- The word whose ones are exactly the positions in `[lo, hi)`. -/
def mask (lo hi : Nat) : Word := (BitVec.allOnes (hi - lo)).setWidth 32 <<< lo

/-- The bits in `[lo, hi)`, moved down to bit 0. -/
def field (w : Word) (lo hi : Nat) : Word := (w &&& mask lo hi) >>> lo

/-- The bit at position `i`, as a word that is 0 or 1. -/
def bit (w : Word) (i : Nat) : Word := field w i (i + 1)

/-- `w` with the bits in `[lo, hi)` replaced by the low bits of `v`. -/
def withField (w : Word) (lo hi : Nat) (v : Word) : Word :=
  (w &&& ~~~ mask lo hi) ||| ((v <<< lo) &&& mask lo hi)

/-- The field `[0, sign + 1)` read as a two's complement number, `sign` being its sign bit. -/
def signedField (w : Word) (sign : Nat) : Int := (w.extractLsb' 0 (sign + 1)).toInt

end Word

end ArmLink
