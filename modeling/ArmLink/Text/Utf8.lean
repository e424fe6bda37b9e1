import ArmLink.Bytes

/-!
# UTF-8

A character is a lead byte and up to three tail bytes. The lead byte tells how many tails follow and
which bytes the first of them may be, so that no character is longer than it has to be, none is a
surrogate and none lies beyond the last one.
-/

namespace ArmLink.Text.Utf8

inductive DecodeError where
  /-- no character starts with the `length` bytes at `index` and the byte after them -/
  | invalid (index length : Nat)
  /-- the character at `index` is cut off -/
  | incomplete (index : Nat)
  deriving DecidableEq, Repr

def DecodeError.message : DecodeError → String
  | invalid index length => s!"invalid utf-8 sequence of {length} bytes from index {index}"
  | incomplete index => s!"incomplete utf-8 byte sequence from index {index}"

structure Range where
  first : UInt8
  last : UInt8
  deriving DecidableEq, Repr

/-- The bytes that any tail may be. -/
def tail : Range := ⟨0x80, 0xbf⟩

/-- The bits of a lead byte that count, and the ranges of the tails that follow. -/
def lead? (b : UInt8) : Option (Nat × List Range) :=
  if b < 0x80 then some (b.toNat, [])
  else if b < 0xc2 then none
  else if b < 0xe0 then some (b.toNat % 32, [tail])
  else if b = 0xe0 then some (0, [⟨0xa0, 0xbf⟩, tail])
  else if b = 0xed then some (13, [⟨0x80, 0x9f⟩, tail])
  else if b < 0xf0 then some (b.toNat % 16, [tail, tail])
  else if b = 0xf0 then some (0, [⟨0x90, 0xbf⟩, tail, tail])
  else if b < 0xf4 then some (b.toNat % 8, [tail, tail, tail])
  else if b = 0xf4 then some (4, [⟨0x80, 0x8f⟩, tail, tail])
  else none

/-- Reads tails after `seen` bytes that stand for `value`. Gives the character and the bytes behind
it; fails with the number of bytes that could have started a character, or with nothing if the
bytes end too early. -/
def readTails (value seen : Nat) : List Range → Bytes → Except (Option Nat) (Nat × Bytes)
  | [], bytes => .ok (value, bytes)
  | _ :: _, [] => .error none
  | range :: ranges, b :: bytes =>
    if range.first ≤ b ∧ b ≤ range.last then
      readTails (value * 64 + b.toNat % 64) (seen + 1) ranges bytes
    else .error (some seen)

theorem length_readTails {value seen : Nat} {ranges : List Range} {bytes rest : Bytes} {c : Nat}
    (h : readTails value seen ranges bytes = .ok (c, rest)) : rest.length ≤ bytes.length := by
  induction ranges generalizing value seen bytes with
  | nil =>
    simp only [readTails, Except.ok.injEq, Prod.mk.injEq] at h
    simp [h.2]
  | cons range ranges ih =>
    cases bytes with
    | nil => simp [readTails] at h
    | cons b bytes =>
      simp only [readTails] at h
      split at h
      · exact Nat.le_succ_of_le (ih h)
      · simp at h

/-- The characters of bytes that start at an index of a longer string of bytes. -/
def decodeAt (index : Nat) (bytes : Bytes) : Except DecodeError (List Char) :=
  match bytes with
  | [] => .ok []
  | b :: bytes =>
    match lead? b with
    | none => .error (.invalid index 1)
    | some (bits, ranges) =>
      match h : readTails bits 1 ranges bytes with
      | .error none => .error (.incomplete index)
      | .error (some length) => .error (.invalid index length)
      | .ok (c, rest) =>
        have := length_readTails h
        (decodeAt (index + 1 + ranges.length) rest).map (Char.ofNat c :: ·)
termination_by bytes.length
decreasing_by simp; omega

/-- The text that bytes stand for. -/
def decode (bytes : Bytes) : Except DecodeError String := (decodeAt 0 bytes).map String.ofList

end ArmLink.Text.Utf8
