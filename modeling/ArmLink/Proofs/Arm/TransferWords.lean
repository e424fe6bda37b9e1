import ArmLink.Proofs.Arm.Execution

/-!
# The words of loads and stores

Loads and stores are made from few layouts by setting and flipping bits. What comes out is read back
as the access that was meant.
-/

namespace ArmLink.Arm

open Word (pack)

variable {index : Register} {offset : Int} {bits v : Word} {x y t b : BitVec 4}
  {up other write : Bool} {kind : BitVec 3} {low : BitVec 12}

/-- How numbers of a format are accessed by way of the general registers. -/
def Format.access : Format → Encode.Access
  | byte => .word Encode.byteBit
  | signedByte => .half ((1 <<< 5) ||| (1 <<< 6))
  | signedHalf => .half (1 <<< 6)
  | half => .half 0
  | _ => .word 0

/-- The formats that are loaded into general registers, and those that are stored from them. -/
def Format.isGeneral (load : Bool) : Format → Bool
  | word | byte | half => true
  | signedByte | signedHalf => load
  | _ => false

/-- Whether the offset is subtracted. Only words and bytes look at the suffix for it. -/
def Format.subtracts (suffixes : Suffixes) : Format → Bool
  | word | byte => suffixes.subtract
  | _ => false

namespace Encode

variable {cond : Condition} {suffixes : Suffixes} {base rt : Register} {w : Word}

/-- The base register stays as it is without two of the suffixes. -/
theorem mayMaterialize_iff :
    mayMaterialize suffixes = true ↔ suffixes.postIndex = false ∧ suffixes.writeback = false := by
  simp [mayMaterialize]

theorem loadHalfRegister_eq_ok (h : loadHalfRegister index base rt cond suffixes = .ok w) :
    ∃ b t x : BitVec 4, base = b.toNat ∧ rt = t.toNat ∧ index = x.toNat ∧
      w = pack cond.nibble (transferControl 0 (!suffixes.postIndex) true false suffixes.writeback
        true) b t (halfLow 0 .half x) := by
  have hfixed : cond.field ||| (if suffixes.postIndex then 0 else 1 <<< 24)
      ||| (if suffixes.writeback then 1 <<< 21 else 0) ||| (1 <<< 23) ||| loadBit ||| (0xb <<< 4) =
        pack cond.nibble
          (transferControl 0 (!suffixes.postIndex) true false suffixes.writeback true)
          0#4 0#4 0xb0#12 := by
    cases suffixes.postIndex <;> cases suffixes.writeback <;> cases cond <;> rfl
  have hlow : ∀ x : BitVec 4, 0xb0#12 ||| (0#8 ++ x) = halfLow 0 .half x := by
    decide
  unfold loadHalfRegister at h
  dsimp only at h
  obtain ⟨_, hx, h⟩ := bind_eq_ok.mp h
  obtain ⟨x, rfl, rfl⟩ := register_eq_ok hx
  obtain ⟨_, hb, h⟩ := bind_eq_ok.mp h
  obtain ⟨b, rfl, rfl⟩ := register_eq_ok hb
  obtain ⟨_, ht, h⟩ := bind_eq_ok.mp h
  obtain ⟨t, rfl, rfl⟩ := register_eq_ok ht
  cases pure_eq_ok.mp h
  refine ⟨b, t, x, rfl, rfl, rfl, ?_⟩
  rw [hfixed, Word.eq_pack_lowest, Word.shiftLeft_eq_pack_rn, Word.shiftLeft_eq_pack_rd]
  simp only [Word.pack_or, BitVec.or_zero, BitVec.zero_or, hlow]

theorem loadHalf_eq_ok (h : loadHalf offset base rt cond suffixes = .ok w) :
    ∃ b t high low : BitVec 4, base = b.toNat ∧ rt = t.toNat ∧
      (high ++ low).setWidth 32 = BitVec.ofNat 32 offset.natAbs ∧
        w = pack cond.nibble (transferControl 0 (!suffixes.postIndex) (0 ≤ offset) true
          suffixes.writeback true) b t (halfLow high .half low) := by
  unfold loadHalf at h
  obtain ⟨word, hword, h⟩ := bind_eq_ok.mp h
  obtain ⟨b, t, x, rfl, rfl, hx, rfl⟩ := loadHalfRegister_eq_ok hword
  obtain rfl : x = 0 := BitVec.eq_of_toNat_eq hx.symm
  dsimp only at h
  split at h
  · rename_i hlt
    cases pure_eq_ok.mp h
    have hcut : ∀ v : BitVec 8,
        (v.setWidth 32 &&& 0xf) ||| (((v.setWidth 32 : Word) >>> 4) <<< 8) =
          pack 0#4 0#8 0#4 0#4 (v.extractLsb' 4 4 ++ 0#4 ++ v.extractLsb' 0 4) ∧
        v.extractLsb' 4 4 ++ v.extractLsb' 0 4 = v ∧
        halfLow 0 .half 0 ||| (v.extractLsb' 4 4 ++ 0#4 ++ v.extractLsb' 0 4) =
          halfLow (v.extractLsb' 4 4) .half (v.extractLsb' 0 4) := by
      decide +kernel
    obtain ⟨hbits, hvalue, hlow⟩ := hcut (BitVec.ofNat 8 offset.natAbs)
    have hbyte := Word.ofNat_eq_setWidth (n := 8) hlt (by decide)
    refine ⟨b, t, _, _, rfl, rfl, by rw [hvalue, ← hbyte], ?_⟩
    have hconstant : (1 <<< 22 : Word) = pack 0#4 0x04#8 0#4 0#4 0#12 := rfl
    have hcontrol : ∀ before up write : Bool, transferControl 0 before up false write true |||
        0x04#8 = transferControl 0 before up true write true := by
      decide
    rw [pack_direction, beq_true, hbyte, BitVec.or_assoc (pack _ _ _ _ _), hbits, hconstant]
    simp only [Word.pack_or, BitVec.or_zero, hlow, hcontrol]
  · cases h

theorem floatWord_eq_ok {double : Bool}
    (h : floatWord double offset base rt cond suffixes = .ok w) :
    ∃ (b t : BitVec 4) (words : BitVec 8), base = b.toNat ∧ rt = t.toNat ∧
      words = BitVec.ofNat 8 (offset.natAbs / 4) ∧
        w = pack cond.nibble (transferControl 0b110 true (0 ≤ offset) false suffixes.writeback true)
          b t ((if double then 0xb#4 else 0xa#4) ++ words) := by
  have hfixed : cond.field ||| (if suffixes.writeback then 1 <<< 21 else 0) ||| (6 <<< 25)
      ||| (1 <<< 24) ||| (1 <<< 23) ||| (10 <<< 8) ||| loadBit =
        pack cond.nibble (transferControl 0b110 true true false suffixes.writeback true) 0#4 0#4
          0xa00#12 := by
    cases suffixes.writeback <;> cases cond <;> rfl
  have hmask (k : Nat) : BitVec.ofNat 32 k &&& ((0xff : Nat) : Word) =
      pack 0#4 0#8 0#4 0#4 (0#4 ++ BitVec.ofNat 8 k) := by
    have hbyte : ∀ v : BitVec 8, v.setWidth 32 = pack 0#4 0#8 0#4 0#4 (0#4 ++ v) := by
      decide +kernel
    rw [← hbyte]
    apply BitVec.eq_of_toNat_eq
    rw [BitVec.toNat_and, BitVec.toNat_setWidth_of_le (by decide), BitVec.toNat_ofNat,
      BitVec.toNat_ofNat, ← Nat.mod_mod_of_dvd k (show 2 ^ 8 ∣ 2 ^ 32 by decide)]
    exact Nat.and_two_pow_sub_one_eq_mod _ 8
  have hprecision : (((if double then 1 <<< 8 else 0) : Nat) : Word) =
      pack 0#4 0#8 0#4 0#4 (if double then 0x100#12 else 0#12) := by
    cases double <;> rfl
  have hlow : ∀ (double : Bool) (v : BitVec 8),
      0xa00#12 ||| (0#4 ++ v) ||| (if double then 0x100#12 else 0#12) =
        (if double then 0xb#4 else 0xa#4) ++ v := by
    decide +kernel
  unfold floatWord at h
  dsimp only at h
  obtain ⟨_, hb, h⟩ := bind_eq_ok.mp h
  obtain ⟨b, rfl, rfl⟩ := register_eq_ok hb
  obtain ⟨_, ht, h⟩ := bind_eq_ok.mp h
  obtain ⟨t, rfl, rfl⟩ := register_eq_ok ht
  cases pure_eq_ok.mp h
  refine ⟨b, t, _, rfl, rfl, rfl, ?_⟩
  rw [hfixed, pack_direction, beq_true, hmask, Word.shiftLeft_eq_pack_rn,
    Word.shiftLeft_eq_pack_rd, hprecision]
  simp only [Word.pack_or, BitVec.or_zero, BitVec.zero_or, hlow]

/-! ## Accesses -/

/-- What turns a load into a store. -/
def flip (load : Bool) : Word := if load then 0 else loadBit

theorem pack_flip {cond : BitVec 4} {before load : Bool} :
    pack cond (transferControl kind before up other write true) x y low ^^^ flip load =
      pack cond (transferControl kind before up other write load) x y low := by
  have hcontrol : ∀ (kind : BitVec 3) (before up other write : Bool),
      transferControl kind before up other write true ^^^ 0x01#8 =
        transferControl kind before up other write false := by
    decide +kernel
  cases load with
  | true => exact BitVec.xor_zero
  | false =>
    have hbit : flip false = pack 0#4 0x01#8 0#4 0#4 0#12 := rfl
    simp only [hbit, Word.pack_xor, hcontrol, BitVec.xor_zero]

theorem pack_byteBit {cond : BitVec 4} {before load : Bool} :
    pack cond (transferControl kind before up false write load) x y low ||| byteBit =
      pack cond (transferControl kind before up true write load) x y low := by
  have hcontrol : ∀ (kind : BitVec 3) (before up write load : Bool),
      transferControl kind before up false write load ||| 0x04#8 =
        transferControl kind before up true write load := by
    decide +kernel
  have hbit : byteBit = pack 0#4 0x04#8 0#4 0#4 0#12 := rfl
  simp only [hbit, Word.pack_or, hcontrol, BitVec.or_zero]

theorem pack_halfCode (cond x y : BitVec 4) (control : BitVec 8) (high low : BitVec 4) :
    pack cond control x y (halfLow high .half low) ^^^ ((1 <<< 5) ||| (1 <<< 6)) =
        pack cond control x y (halfLow high .signedByte low) ∧
      pack cond control x y (halfLow high .half low) ^^^ (1 <<< 6) =
        pack cond control x y (halfLow high .signedHalf low) := by
  have hlow : ∀ high low : BitVec 4,
      halfLow high .half low ^^^ 0x060#12 = halfLow high .signedByte low ∧
        halfLow high .half low ^^^ 0x040#12 = halfLow high .signedHalf low := by
    decide +kernel
  have hbyte : ((1 <<< 5) ||| (1 <<< 6) : Word) = pack 0#4 0#8 0#4 0#4 0x060#12 := rfl
  have hhalf : (1 <<< 6 : Word) = pack 0#4 0#8 0#4 0#4 0x040#12 := rfl
  rw [hbyte, hhalf]
  simp only [Word.pack_xor, BitVec.xor_zero, hlow, and_self]

section Reads

variable {format : Format} {load : Bool}

theorem subtracts_of_word (haccess : format.access = .word bits)
    (hformat : format.isGeneral load = true) : format.subtracts suffixes = suffixes.subtract := by
  cases format with
  | word => rfl
  | byte => rfl
  | single => cases hformat
  | double => cases hformat
  | _ => cases haccess

theorem subtracts_of_half (haccess : format.access = .half bits) :
    format.subtracts suffixes = false := by
  cases format <;> first | rfl | cases haccess

section

variable (hformat : format.isGeneral load = true)
include hformat

theorem reads_word {offset : Offset} (haccess : format.access = .word bits) (hdecode : ∀ byte,
      decode? (pack cond.nibble (transferControl kind true up byte false load) b t low) =
        some (.transfer load (if byte then .byte else .word) up b.toNat t.toNat offset)) :
    Reads ((pack cond.nibble (transferControl kind true up false false true) b t low ||| bits) ^^^
      flip load) cond (.transfer load format up b.toNat t.toNat offset) := by
  cases format with
  | word =>
    cases haccess
    have hzero (v : Word) : v ||| 0 = v := BitVec.or_zero
    rw [hzero, pack_flip]
    exact reads_of_pack (hdecode false)
  | byte =>
    cases haccess
    rw [pack_byteBit, pack_flip]
    exact reads_of_pack (hdecode true)
  | single => cases hformat
  | double => cases hformat
  | _ => cases haccess

theorem reads_half {high low : BitVec 4} (haccess : format.access = .half bits) : Reads
      ((pack cond.nibble (transferControl 0 true up other false true) b t (halfLow high .half low)
        ^^^ bits) ^^^ flip load)
      cond (.transfer load format up b.toNat t.toNat
        (if other then .constant ((high ++ low).setWidth 32) else .register low.toNat 0)) := by
  obtain ⟨hbyte, hhalf⟩ :=
    pack_halfCode cond.nibble b t (transferControl 0 true up other false true) high low
  cases format with
  | half =>
    cases haccess
    have hzero (v : Word) : v ^^^ 0 = v := BitVec.xor_zero
    rw [hzero, pack_flip]
    exact reads_of_pack (decode?_half _ _ _ _ _ _ _ _ _ (.inl rfl))
  | signedByte =>
    cases haccess
    cases hformat
    rw [hbyte, pack_flip]
    exact reads_of_pack (decode?_half _ _ _ _ _ _ _ _ _ (.inr ⟨rfl, .inl rfl⟩))
  | signedHalf =>
    cases haccess
    cases hformat
    rw [hhalf, pack_flip]
    exact reads_of_pack (decode?_half _ _ _ _ _ _ _ _ _ (.inr ⟨rfl, .inr rfl⟩))
  | _ => cases haccess

section

variable (hkeep : mayMaterialize suffixes = true)
include hkeep

/-- **Direct.** An access at a constant offset that fits its field. -/
theorem reads_direct (h : format.access.direct offset base rt cond suffixes = .ok w) :
    Reads (w ^^^ flip load) cond (.transfer load format
      (decide (0 ≤ offset) == !format.subtracts suffixes) base rt
      (.constant (.ofNat 32 offset.natAbs))) := by
  obtain ⟨hpost, hwrite⟩ := mayMaterialize_iff.mp hkeep
  unfold Access.direct at h
  split at h
  · rename_i bits haccess
    obtain ⟨v, hv, h⟩ := bind_eq_ok.mp h
    obtain ⟨b, t, low, rfl, rfl, hlow, rfl⟩ := loadWord_eq_ok hv
    cases pure_eq_ok.mp h
    rw [hpost, hwrite, subtracts_of_word haccess hformat]
    apply reads_word hformat haccess
    intro byte
    have hoffset : BitVec.ofNat 32 offset.natAbs = low.setWidth 32 := by
      rw [← hlow, BitVec.ofNat_toNat]
    rw [hoffset]
    exact decode?_word ..
  · rename_i bits haccess
    obtain ⟨v, hv, h⟩ := bind_eq_ok.mp h
    obtain ⟨b, t, high, low, rfl, rfl, hoffset, rfl⟩ := loadHalf_eq_ok hv
    cases pure_eq_ok.mp h
    rw [hpost, hwrite, subtracts_of_half haccess, Bool.not_false, beq_true, ← hoffset]
    exact reads_half hformat haccess

theorem reads_wordIndexed {offset : Nat} {amount : BitVec 5} (haccess : format.access = .word bits)
    (h : loadWord offset base rt cond suffixes = .ok v)
    (hoffset : offset = (shiftLow amount .lsl x).toNat) :
    Reads (((v ^^^ registerOffset) ||| bits) ^^^ flip load) cond
      (.transfer load format (!format.subtracts suffixes) base rt
        (.register x.toNat amount.toNat)) := by
  obtain ⟨hpost, hwrite⟩ := mayMaterialize_iff.mp hkeep
  obtain ⟨b, t, low, rfl, rfl, hlow, rfl⟩ := loadWord_eq_ok h
  have hregister : registerOffset = pack 0#4 0x20#8 0#4 0#4 0#12 := rfl
  have hcontrol : ∀ up, transferControl 0b010 true up false false true ^^^ 0x20#8 =
      transferControl 0b011 true up false false true := by
    decide
  obtain rfl : low = shiftLow amount .lsl x := by
    apply BitVec.eq_of_toNat_eq
    rw [hlow, hoffset]
    rfl
  have hup : decide ((0 : Int) ≤ offset) = true := decide_eq_true (Int.natCast_nonneg offset)
  rw [hup, Bool.true_beq, hpost, hwrite, hregister, subtracts_of_word haccess hformat,
    Word.pack_xor, Bool.not_false, hcontrol]
  simp only [BitVec.xor_zero]
  apply reads_word hformat haccess
  intro byte
  exact decode?_wordIndexed ..

theorem reads_halfIndexed (haccess : format.access = .half bits)
    (h : loadHalfRegister index base rt cond suffixes = .ok v) :
    Reads ((v ^^^ bits) ^^^ flip load) cond
      (.transfer load format (!format.subtracts suffixes) base rt (.register index 0)) := by
  obtain ⟨hpost, hwrite⟩ := mayMaterialize_iff.mp hkeep
  obtain ⟨b, t, x, rfl, rfl, rfl, rfl⟩ := loadHalfRegister_eq_ok h
  rw [hpost, hwrite, subtracts_of_half haccess]
  exact reads_half hformat haccess

/-- **Scratch.** An access at the offset in the scratch register. -/
theorem reads_viaScratch (h : format.access.viaScratch base rt cond suffixes = .ok w) :
    Reads (w ^^^ flip load) cond
      (.transfer load format (!format.subtracts suffixes) base rt (.register .scratch 0)) := by
  unfold Access.viaScratch at h
  split at h
  · rename_i bits haccess
    obtain ⟨v, hv, ⟨⟩⟩ := bind_pure_eq_ok.mp h
    have hscratch : Register.scratch = (shiftLow 0 .lsl 11).toNat := rfl
    exact reads_wordIndexed hformat hkeep haccess hv hscratch
  · rename_i bits haccess
    obtain ⟨v, hv, ⟨⟩⟩ := bind_pure_eq_ok.mp h
    exact reads_halfIndexed hformat hkeep haccess hv

end

end

theorem shiftedRegister_eq_ok {shift : Shift} {n : Nat}
    (h : shiftedRegister index shift (.constant n) = .ok w) :
    ∃ (x : BitVec 4) (amount : BitVec 5), index = x.toNat ∧ n = amount.toNat ∧
      w = (shiftLow amount shift x).setWidth 32 := by
  obtain ⟨_, hx, h⟩ := bind_eq_ok.mp h
  obtain ⟨x, rfl, rfl⟩ := register_eq_ok hx
  dsimp only at h
  split at h
  · rename_i hlt
    cases pure_eq_ok.mp h
    refine ⟨x, BitVec.ofNat 5 n, rfl, (Nat.mod_eq_of_lt hlt).symm, ?_⟩
    have hlow : ∀ (amount : BitVec 5) (x : BitVec 4),
        x.setWidth 32 ||| (shiftCode shift <<< 5) ||| (amount.setWidth 32 <<< 7) =
          (shiftLow amount shift x).setWidth 32 := by
      cases shift <;> decide +kernel
    rw [Word.ofNat_eq_setWidth (n := 5) hlt (by decide), hlow]
  · cases h

/-- **Indexed.** An access at the offset in a register, shifted to the left. -/
theorem reads_indexed {i : Instruction} {shift : Nat} (hformat : format.isGeneral load = true)
    (hkeep : mayMaterialize i.suffixes = true)
    (h : indexed i (some format.access) base index shift rt = .ok w) :
    Reads (w ^^^ flip load) i.condition
      (.transfer load format (!format.subtracts i.suffixes) base rt (.register index shift)) := by
  unfold indexed at h
  split at h
  · rename_i bits haccess
    obtain ⟨offset, hoffset, h⟩ := bind_eq_ok.mp h
    obtain ⟨x, amount, hindex, hshift, rfl⟩ := shiftedRegister_eq_ok hoffset
    obtain ⟨v, hv, ⟨⟩⟩ := bind_pure_eq_ok.mp h
    rw [hindex, hshift]
    exact reads_wordIndexed hformat hkeep (Option.some.inj haccess) hv
      (BitVec.toNat_setWidth_of_le (by decide))
  · rename_i bits haccess
    split at h
    · rename_i hshift
      subst hshift
      obtain ⟨v, hv, ⟨⟩⟩ := bind_pure_eq_ok.mp h
      exact reads_halfIndexed hformat hkeep (Option.some.inj haccess) hv
    · cases h
  · rename_i haccess
    cases haccess

/-- **Floating point.** An access to a floating point number. -/
theorem reads_float {double : Bool} (hkeep : mayMaterialize suffixes = true)
    (hlt : offset.natAbs < 0x400) (hwords : offset % 4 = 0)
    (h : floatWord double offset base rt cond suffixes = .ok w) :
    Reads (w ^^^ flip load) cond (.transfer load (if double then .double else .single) (0 ≤ offset)
      base rt (.constant (.ofNat 32 offset.natAbs))) := by
  obtain ⟨-, hwrite⟩ := mayMaterialize_iff.mp hkeep
  obtain ⟨b, t, words, rfl, rfl, rfl, rfl⟩ := floatWord_eq_ok h
  have hoffset : BitVec.ofNat 32 offset.natAbs =
      (BitVec.ofNat 8 (offset.natAbs / 4)).setWidth 32 <<< 2 := by
    apply BitVec.eq_of_toNat_eq
    rw [BitVec.toNat_shiftLeft, BitVec.toNat_setWidth_of_le (by decide), BitVec.toNat_ofNat,
      BitVec.toNat_ofNat, Nat.shiftLeft_eq]
    omega
  rw [hwrite, pack_flip, hoffset]
  exact reads_of_pack (decode?_float ..)

end Reads

end Encode

end ArmLink.Arm
