import ArmLink.Bytes

/-!
# The hash function of ELF symbol tables

Dynamic loaders find symbols through a table of buckets; this is the function that assigns a name
to its bucket.
-/

namespace ArmLink.Elf

/-- One more byte of a name: shift it in, and fold what leaves the low 28 bits back. -/
def hashByte (h : Word) (b : UInt8) : Word :=
  let h := (h <<< 4) + BitVec.ofNat 32 b.toNat
  let high := h &&& 0xf0000000
  (h ^^^ (high >>> 24)) &&& ~~~ high

def hash (name : Bytes) : Word := name.foldl hashByte 0

end ArmLink.Elf
