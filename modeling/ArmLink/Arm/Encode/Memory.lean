import ArmLink.Arm.Encode.Data

/-!
# Encoding of loads and stores

Words and unsigned bytes are accessed with a 12-bit offset, halfwords and signed bytes with an
8-bit offset cut in two, floating point numbers with an 8-bit offset in words. An offset that does
not fit goes through the scratch register, unless the address is written back. Loads and stores
differ in one bit.
-/

namespace ArmLink.Arm.Encode

/-- The bit that tells loads from stores. -/
def loadBit : Word := 1 <<< 20

/-- The bit that tells bytes from words. -/
def byteBit : Word := 1 <<< 22

/-- The bit that tells an offset in a register from a constant offset of a word access. -/
def registerOffset : Word := 1 <<< 25

/-- A halfword load with the offset in a register. -/
def loadHalfRegister (index base rt : Register) (cond : Condition) (suffixes : Suffixes) :
    Except EncodeError Word := do
  let word := cond.field
    ||| (if suffixes.postIndex then 0 else 1 <<< 24)
    ||| (if suffixes.writeback then 1 <<< 21 else 0)
    ||| (1 <<< 23) ||| loadBit ||| (0xb <<< 4)
  let index ← register index
  let base ← register base
  let rt ← register rt
  return word ||| index ||| (base <<< 16) ||| (rt <<< 12)

/-- A halfword load at an offset below 256. -/
def loadHalf (offset : Int) (base rt : Register) (cond : Condition) (suffixes : Suffixes) :
    Except EncodeError Word := do
  let word ← loadHalfRegister 0 base rt cond suffixes
  let word := if offset < 0 then word ^^^ (1 <<< 23) else word
  if offset.natAbs < 0x100 then
    let v := BitVec.ofNat 32 offset.natAbs
    return word ||| (v &&& 0xf) ||| ((v >>> 4) <<< 8) ||| (1 <<< 22)
  else .error (.wideOffset offset.natAbs base)

/-- The bits that turn an unsigned halfword load into a signed byte or halfword load. -/
def signedVariant : Opcode → Word
  | .movb => (1 <<< 5) ||| (1 <<< 6)
  | .movh => 1 <<< 6
  | _ => 0

/-- How an integer in memory is accessed. -/
inductive Access where
  /-- as a word or byte, with the bits to set -/
  | word (bits : Word)
  /-- as a halfword or signed byte, with the bits to flip -/
  | half (bits : Word)
  deriving DecidableEq, Repr

/-- How an opcode loads an integer. -/
def loadAccess? : Opcode → Option Access
  | .movw => some (.word 0)
  | .movbu => some (.word byteBit)
  | op@(.movb) | op@(.movh) | op@(.movhu) => some (.half (signedVariant op))
  | _ => none

/-- How an opcode stores an integer. Signed and unsigned numbers are stored alike. -/
def storeAccess? : Opcode → Option Access
  | .movw => some (.word 0)
  | .movb | .movbu => some (.word byteBit)
  | .movh | .movhu => some (.half 0)
  | _ => none

/-- An offset that does not fit may go through the scratch register only if the computed address
is not written back. -/
def mayMaterialize (suffixes : Suffixes) : Bool := !(suffixes.postIndex || suffixes.writeback)

/-- The number of values of the offset field of an access. -/
def Access.span : Access → Nat
  | word _ => 0x1000
  | half _ => 0x100

/-- A load at a constant offset that fits its field. -/
def Access.direct (a : Access) (offset : Int) (base rt : Register) (cond : Condition)
    (suffixes : Suffixes) : Except EncodeError Word := do
  match a with
  | word bits => return (← loadWord offset base rt cond suffixes) ||| bits
  | half bits => return (← loadHalf offset base rt cond suffixes) ^^^ bits

/-- A load at the offset in a register. -/
def Access.viaScratch (a : Access) (base rt : Register) (cond : Condition) (suffixes : Suffixes) :
    Except EncodeError Word := do
  match a with
  | word bits =>
    return ((← loadWord Register.scratch base rt cond suffixes) ^^^ registerOffset) ||| bits
  | half bits => return (← loadHalfRegister .scratch base rt cond suffixes) ^^^ bits

/-- A load, or with the bits `flip` flipped a store, at any constant offset. `busy` are the
registers for which the scratch register cannot stand in. -/
def Access.code (a : Access) (flip : Word) (offset : Int) (base rt : Register)
    (busy : List Register) (cond : Condition) (suffixes : Suffixes) : Except EncodeError Code := do
  if offset.natAbs < a.span || !mayMaterialize suffixes then
    return .ofWord ((← a.direct offset base rt cond suffixes) ^^^ flip)
  else if busy.contains .scratch then
    .error .scratchAddress
  else
    let code ← materialize cond .scratch (.ofInt 32 offset)
    code.append (.ofWord ((← a.viaScratch base rt cond suffixes) ^^^ flip))

/-- A load at a constant offset. -/
def load (i : Instruction) (offset : Int) (base rd : Register) : Except EncodeError Code :=
  match loadAccess? i.op with
  | some a => a.code 0 offset base rd [base] i.condition i.suffixes
  | none => .error (.noForm i.op i.form)

/-- A store at a constant offset. -/
def store (i : Instruction) (rs : Register) (offset : Int) (base : Register) :
    Except EncodeError Code :=
  match storeAccess? i.op with
  | some a => a.code loadBit offset base rs [base, rs] i.condition i.suffixes
  | none => .error (.noForm i.op i.form)

/-- An access at the offset in a register, shifted to the left. Only words and bytes have room for
the shift. -/
def indexed (i : Instruction) (access? : Option Access) (base index : Register) (shift : Nat)
    (rt : Register) : Except EncodeError Word := do
  match access? with
  | some (.word bits) =>
    let offset ← shiftedRegister index .lsl (.constant shift)
    return ((← loadWord offset.toNat base rt i.condition i.suffixes) ^^^ registerOffset) ||| bits
  | some (.half bits) =>
    if shift = 0 then
      return (← loadHalfRegister index base rt i.condition i.suffixes) ^^^ bits
    else .error (.shiftedIndex i.op)
  | none => .error (.noForm i.op i.form)

/-- The last word of a floating point load: an offset in words below 256 from a register. -/
def floatWord (double : Bool) (offset : Int) (base fd : Register) (cond : Condition)
    (suffixes : Suffixes) : Except EncodeError Word := do
  let word := cond.field ||| (if suffixes.writeback then 1 <<< 21 else 0)
    ||| (6 <<< 25) ||| (1 <<< 24) ||| (1 <<< 23) ||| (10 <<< 8) ||| loadBit
  let word := if offset < 0 then word ^^^ (1 <<< 23) else word
  let base ← register base
  let fd ← register fd
  return word ||| (BitVec.ofNat 32 (offset.natAbs / 4) &&& 0xff) ||| (base <<< 16) ||| (fd <<< 12)
    ||| (if double then 1 <<< 8 else 0)

/-- A floating point load, or with the bits `flip` flipped a store. A large offset is first added
to the base, in the scratch register. -/
def floatMemory (i : Instruction) (flip : Word) (offset : Int) (base fd : Register) :
    Except EncodeError Code := do
  let double? : Option Bool :=
    match i.op with
    | .movf => some false
    | .movd => some true
    | _ => none
  match double? with
  | none => .error (.noForm i.op i.form)
  | some double =>
    if offset % 4 ≠ 0 then
      .error (.oddOffset offset)
    else if offset.natAbs < 0x400 then
      return .ofWord ((← floatWord double offset base fd i.condition i.suffixes) ^^^ flip)
    else if !mayMaterialize i.suffixes then
      .error (.wideOffset offset base)
    else if base = Register.scratch then
      .error .scratchAddress
    else
      let constant ← materialize i.condition .scratch (.ofInt 32 offset)
      let sum ← constant.append (.ofWord
        (dataProcessing .add i.condition .none ||| scratchField ||| ((← register base) <<< 16)
          ||| (scratchField <<< 12)))
      sum.append (.ofWord ((← floatWord double 0 .scratch fd i.condition i.suffixes) ^^^ flip))

end ArmLink.Arm.Encode
