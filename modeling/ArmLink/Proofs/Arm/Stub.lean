import ArmLink.Arm.Machine
import Mathlib.Algebra.Group.Nat.Defs

/-!
# What a stub does

A stub adds the distance to its slot to the program counter, in parts of 8, 8 and 12 bits, and jumps
to the address in the slot. Executing its three instructions shows which address that is: the
distance counts modulo 2²⁸, and nobody looks at its upper four bits.
-/

namespace ArmLink.Arm.Stub

/-- An instruction that a stub is made of. -/
inductive Operation where
  | add (rd rn : BitVec 4) (number : Word)
  /-- loads a register from an address, which is first put into another register -/
  | load (rd rn : BitVec 4) (offset : BitVec 12)
  deriving DecidableEq, Repr

/-- The instruction that a word stands for. Numbers are eight bits, rotated by twice another four.
-/
def decode? (w : Word) : Option Operation :=
  let rn := w.extractLsb' 16 4
  let rd := w.extractLsb' 12 4
  let opcode := w.extractLsb' 20 12
  if opcode = 0xe28 then
    let number : Word := (w.extractLsb' 0 8).setWidth 32
    some (.add rd rn (number.rotateRight (2 * (w.extractLsb' 8 4).toNat)))
  else if opcode = 0xe5b then some (.load rd rn (w.extractLsb' 0 12))
  else none

/-- What instructions read: the address of the next one to execute, and the registers. -/
structure Cpu where
  address : Word
  registers : BitVec 4 → Word

/-- The register that is the program counter. -/
def programCounter : BitVec 4 := 15

/-- What an instruction reads in a register. The program counter is two instructions ahead. -/
def Cpu.read (c : Cpu) (r : BitVec 4) : Word :=
  if r = programCounter then c.address + 8 else c.registers r

/-- The state after a register was written. -/
def Cpu.write (c : Cpu) (r : BitVec 4) (w : Word) : Cpu :=
  ⟨c.address + 4, fun r' => if r' = r then w else c.registers r'⟩

/-- The address from which the program counter is loaded, if instructions that are executed one
after the other end with that. -/
def jumpsThrough? : List Word → Cpu → Option Word
  | [], _ => none
  | w :: rest, c =>
    match decode? w with
    | some (.add rd rn number) =>
      if rd = programCounter then none else jumpsThrough? rest (c.write rd (c.read rn + number))
    | some (.load rd rn offset) =>
      if rd = programCounter then some (c.read rn + offset.setWidth 32) else none
    | none => none

/-- The distance that a stub at a place adds to what its first instruction reads as the program
counter. -/
def distance (place slot : Word) : Word := slot - (place + 8)

/-- The three instructions of a stub, for a distance. -/
def words (distance : Word) : List Word :=
  [0xe28fc600 + (0xff &&& (distance >>> 20)),
   0xe28cca00 + (0xff &&& (distance >>> 12)),
   0xe5bcf000 + (0xfff &&& distance)]

/-! ## Decoding -/

theorem toNat_field (w : Word) (start n : Nat) :
    (w.extractLsb' start n).toNat = w.toNat / 2 ^ start % 2 ^ n := by
  rw [BitVec.extractLsb'_toNat, Nat.shiftRight_eq_div_pow]

theorem field_eq {w : Word} {start n : Nat} {v : BitVec n}
    (h : w.toNat / 2 ^ start % 2 ^ n = v.toNat) : w.extractLsb' start n = v :=
  BitVec.eq_of_toNat_eq ((toNat_field w start n).trans h)

theorem decode?_first : ∀ b : BitVec 8, decode? (0xe28fc600 + b.setWidth 32) =
    some (.add 12 programCounter (b.setWidth 32 <<< 20)) := by
  decide +kernel

theorem decode?_second : ∀ b : BitVec 8, decode? (0xe28cca00 + b.setWidth 32) =
    some (.add 12 12 (b.setWidth 32 <<< 12)) := by
  decide +kernel

theorem decode?_third {b : BitVec 12} :
    decode? (0xe5bcf000 + b.setWidth 32) = some (.load programCounter 12 b) := by
  have hw : (0xe5bcf000 + b.setWidth 32 : Word).toNat = 0xe5bcf000 + b.toNat := by
    bv_omega
  have hopcode : (0xe5bcf000 + b.setWidth 32 : Word).extractLsb' 20 12 = 0xe5b#12 :=
    field_eq (by rw [hw, BitVec.toNat_ofNat]; omega)
  have hrn : (0xe5bcf000 + b.setWidth 32 : Word).extractLsb' 16 4 = 12#4 :=
    field_eq (by rw [hw, BitVec.toNat_ofNat]; omega)
  have hrd : (0xe5bcf000 + b.setWidth 32 : Word).extractLsb' 12 4 = 15#4 :=
    field_eq (by rw [hw, BitVec.toNat_ofNat]; omega)
  have hoffset : (0xe5bcf000 + b.setWidth 32 : Word).extractLsb' 0 12 = b :=
    field_eq (by rw [hw]; omega)
  simp only [decode?, hopcode, hrn, hrd, hoffset]
  rfl

/-! ## Execution -/

theorem mask_eq (w : Word) (start n : Nat) (h : n ≤ 32) :
    BitVec.ofNat 32 (2 ^ n - 1) &&& (w >>> start) = (w.extractLsb' start n).setWidth 32 := by
  have hle : 2 ^ n ≤ 2 ^ 32 := Nat.pow_le_pow_right (by decide) h
  have hpos : 0 < 2 ^ n := Nat.two_pow_pos n
  have hmask : (2 ^ n - 1) % 2 ^ 32 = 2 ^ n - 1 := Nat.mod_eq_of_lt (by omega)
  have hfield : w.toNat / 2 ^ start % 2 ^ n % 2 ^ 32 = w.toNat / 2 ^ start % 2 ^ n :=
    Nat.mod_eq_of_lt (Nat.lt_of_lt_of_le (Nat.mod_lt _ hpos) hle)
  refine BitVec.eq_of_toNat_eq ?_
  rw [BitVec.toNat_setWidth, toNat_field, hfield, BitVec.toNat_and, BitVec.toNat_ushiftRight,
    Nat.shiftRight_eq_div_pow, BitVec.toNat_ofNat, hmask, Nat.and_comm,
    Nat.and_two_pow_sub_one_eq_mod]

theorem sum_parts {w : Word} :
    ((w.extractLsb' 20 8).setWidth 32 <<< 20) + ((w.extractLsb' 12 8).setWidth 32 <<< 12) +
      (w.extractLsb' 0 12).setWidth 32 = BitVec.ofNat 32 (w.toNat % 2 ^ 28) := by
  refine BitVec.eq_of_toNat_eq ?_
  simp only [BitVec.toNat_add, BitVec.toNat_shiftLeft, BitVec.toNat_setWidth, toNat_field,
    BitVec.toNat_ofNat, Nat.shiftLeft_eq]
  omega

theorem words_eq {distance : Word} : words distance =
    [0xe28fc600 + (distance.extractLsb' 20 8).setWidth 32,
     0xe28cca00 + (distance.extractLsb' 12 8).setWidth 32,
     0xe5bcf000 + (distance.extractLsb' 0 12).setWidth 32] := by
  have hfirst := mask_eq distance 20 8 (by decide)
  have hsecond := mask_eq distance 12 8 (by decide)
  have hthird := mask_eq distance 0 12 (by decide)
  rw [← hfirst, ← hsecond, ← hthird]
  rfl

/-- **Stubs.** The three instructions jump through the slot at their distance, of which only 28 bits
count. -/
theorem jumpsThrough?_words (distance : Word) (c : Cpu) : jumpsThrough? (words distance) c =
      some (c.address + 8 + BitVec.ofNat 32 (distance.toNat % 2 ^ 28)) := by
  rw [words_eq, ← sum_parts]
  simp only [jumpsThrough?, decode?_first, decode?_second, decode?_third]
  simp [Cpu.read, Cpu.write, programCounter, BitVec.add_assoc]

theorem reaches_iff (place slot : Word) (registers : BitVec 4 → Word) :
    jumpsThrough? (words (distance place slot)) ⟨place, registers⟩ = some slot ↔
      (distance place slot).toNat < 2 ^ 28 := by
  rw [jumpsThrough?_words, Option.some.injEq]
  generalize hdistance : distance place slot = distance
  obtain rfl : slot = place + 8 + distance := by
    rw [← hdistance, Stub.distance, BitVec.add_comm, BitVec.sub_add_cancel]
  rw [BitVec.add_right_inj]
  constructor
  · intro h
    have hmod := congrArg BitVec.toNat h
    rw [BitVec.toNat_ofNat] at hmod
    omega
  · intro h
    rw [Nat.mod_eq_of_lt h, BitVec.ofNat_toNat, BitVec.setWidth_eq]

end ArmLink.Arm.Stub
