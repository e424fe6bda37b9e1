import ArmLink.Bytes

/-!
# String tables

ELF files refer to names by their offset in a string table, where each distinct name is stored once
and ends in a NUL byte. The table starts with a NUL, so that offset 0 is the empty name.
-/

namespace ArmLink.Elf

/-- A table of names, each with its offset. -/
structure StringTable where
  bytes : Bytes
  /-- the offsets of the names that were added -/
  offsets : List (Bytes × Nat)
  deriving DecidableEq, Repr

namespace StringTable

/-- The table that holds the empty name only. -/
def empty : StringTable := ⟨[0], [([], 0)]⟩

instance : Inhabited StringTable := ⟨empty⟩

/-- Adds a name unless it is there already, and gives its offset. -/
def add (t : StringTable) (name : Bytes) : Nat × StringTable :=
  match t.offsets.lookup name with
  | some offset => (offset, t)
  | none =>
    (t.bytes.length, ⟨t.bytes ++ name ++ [0], (name, t.bytes.length) :: t.offsets⟩)

/-- `add` for a text. -/
def addString (t : StringTable) (name : String) : Nat × StringTable := t.add (Bytes.ofString name)

/-- The name at an offset: the bytes up to the next NUL. -/
def nameAt (bytes : Bytes) (offset : Nat) : Bytes := (bytes.drop offset).takeWhile (· ≠ 0)

end StringTable

end ArmLink.Elf
