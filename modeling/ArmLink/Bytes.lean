import ArmLink.Word

/-!
# Byte strings

The contents of symbols, tables and files. Numbers are stored little-endian: `Bytes.ofNat n v` is
the low `n` bytes of `v`, least significant first, and `Bytes.toNat` reads such a string back.

* `length_patch` — patching grows a string just enough to hold the patch.
-/

namespace ArmLink

abbrev Bytes := List UInt8

namespace Bytes

/-- The low `n` bytes of `v`, least significant first. -/
def ofNat : Nat → Nat → Bytes
  | 0, _ => []
  | n + 1, v => UInt8.ofNat v :: ofNat n (v / 256)

/-- The number that a string of little-endian bytes stands for. -/
def toNat : Bytes → Nat
  | [] => 0
  | b :: bs => b.toNat + 256 * toNat bs

/-- The four bytes of a word. -/
def ofWord (w : Word) : Bytes := ofNat 4 w.toNat

/-- `n` zero bytes. -/
def zeros (n : Nat) : Bytes := List.replicate n 0

def ofString (s : String) : Bytes := s.toUTF8.toList

/-- **Patch.** `bytes` written over `data` from `offset` on; `data` is first extended with zeros if
it does not reach the end of the patch. -/
def patch (data : Bytes) (offset : Nat) (bytes : Bytes) : Bytes :=
  let padded := data ++ zeros (offset + bytes.length - data.length)
  padded.take offset ++ bytes ++ padded.drop (offset + bytes.length)

/-- The `n` bytes of `data` from `offset` on, if `data` has that many. -/
def slice? (data : Bytes) (offset n : Nat) : Option Bytes :=
  if offset + n ≤ data.length then some ((data.drop offset).take n) else none

@[simp] theorem length_ofNat (n v : Nat) : (ofNat n v).length = n := by
  induction n generalizing v with
  | zero => rfl
  | succ n ih => simp [ofNat, ih]

@[simp] theorem length_ofWord (w : Word) : (ofWord w).length = 4 := length_ofNat 4 _

@[simp] theorem length_zeros (n : Nat) : (zeros n).length = n := List.length_replicate

/-- Patching grows a string just enough to hold the patch. -/
theorem length_patch (data : Bytes) (offset : Nat) (bytes : Bytes) :
    (patch data offset bytes).length = max data.length (offset + bytes.length) := by
  simp only [patch, List.length_append, List.length_take, List.length_drop, length_zeros]
  omega

end Bytes

end ArmLink
