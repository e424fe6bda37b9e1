import ArmLink.Proofs.Arm.Fields

/-!
# Rotated immediates

The fields of constants: a byte and a rotation, which stand for the rotated byte.
-/

namespace ArmLink

open List BitVec

variable {k r : Nat} {value field : Word}

namespace Word

theorem rotateRight_rotateLeft (w : Word) (hk : k < 32) : (w.rotateLeft k).rotateRight k = w := by
  refine eq_of_getLsbD_eq fun i hi => ?_
  rw [getLsbD_rotateRight_of_lt hk]
  by_cases hlow : i < 32 - k
  · have hlt : k + i < 32 := by omega
    rw [cond_eq_ite, if_pos (decide_eq_true hlow), getLsbD_rotateLeft_of_le hk, cond_eq_ite,
      if_neg (by simp), Nat.add_sub_cancel_left]
    simp [hlt]
  · have hlt : i - (32 - k) < k := by omega
    have hback : 32 - k + (i - (32 - k)) = i := by omega
    rw [cond_eq_ite, if_neg (by simpa using hlow), getLsbD_rotateLeft_of_le hk, cond_eq_ite,
      if_pos (by simpa using hlt), hback]
    simp [hi]

theorem rotateLeft_rotateRight (w : Word) (hk : k < 32) : (w.rotateRight k).rotateLeft k = w := by
  refine eq_of_getLsbD_eq fun i hi => ?_
  rw [getLsbD_rotateLeft_of_le hk]
  by_cases hlow : i < k
  · have hback : 32 - k + i - (32 - k) = i := by omega
    rw [cond_eq_ite, if_pos (decide_eq_true hlow), getLsbD_rotateRight_of_lt hk, cond_eq_ite,
      if_neg (by simp), hback]
    have hlt : 32 - k + i < 32 := by omega
    simp [hlt]
  · have hlt : i - k < 32 - k := by omega
    have hback : k + (i - k) = i := by omega
    rw [cond_eq_ite, if_neg (by simpa using hlow), getLsbD_rotateRight_of_lt hk, cond_eq_ite,
      if_pos (by simpa using hlt), hback]
    simp [hi]

theorem setWidth_of_and_eq_zero {w : Word} (h : w &&& ~~~ 0xff = 0) :
    (w.setWidth 8).setWidth 32 = w := by
  refine eq_of_getLsbD_eq fun i hi => ?_
  by_cases hlt : i < 8
  · simp [hi, hlt]
  · have hmask : (0xff : Word).getLsbD i = false := by
      rw [show (0xff : Word) = (0xff : BitVec 8).setWidth 32 from rfl, getLsbD_setWidth,
        getLsbD_of_ge _ _ (by omega), Bool.and_false]
    have hbit := congrArg (·.getLsbD i) h
    simp only [getLsbD_and, getLsbD_not, hmask, hi, decide_true, Bool.not_false,
      Bool.and_true] at hbit
    rw [hbit]
    simp [hlt]

end Word

namespace Arm.Immediate

theorem setWidth_and_eq_zero : ∀ byte : BitVec 8, (byte.setWidth 32 : Word) &&& ~~~ 0xff = 0 := by
  decide +kernel

theorem shiftLeft_or_or_mark (hr : r < 16) (byte : BitVec 8) :
    (BitVec.ofNat 32 r <<< 8) ||| byte.setWidth 32 ||| mark =
      Word.pack 0#4 0x20#8 0#4 0#4 (BitVec.ofNat 4 r ++ byte) := by
  have hmark : mark = Word.pack 0#4 0x20#8 0#4 0#4 0#12 := rfl
  rw [Word.ofNat_eq_setWidth (n := 4) hr (by decide),
    ← setWidth_append_eq_shiftLeft_setWidth_or, Word.eq_pack_low, hmark, Word.pack_or]
  simp only [or_zero, zero_or]

/-- A rotation fits a constant if and only if some byte, rotated, is the constant. -/
theorem withRotation?_eq_some_iff (hr : r < 16) : withRotation? value r = some field ↔
      ∃ byte : BitVec 8, field = Word.pack 0#4 0x20#8 0#4 0#4 (BitVec.ofNat 4 r ++ byte) ∧
        (byte.setWidth 32).rotateRight (2 * r) = value := by
  unfold withRotation?
  dsimp only
  constructor
  · intro h
    split at h
    · rename_i hbyte
      have hbyte := Word.setWidth_of_and_eq_zero hbyte
      cases h
      refine ⟨(value.rotateLeft (2 * r)).setWidth 8, ?_, ?_⟩
      · rw [← shiftLeft_or_or_mark hr, hbyte]
      · rw [hbyte, Word.rotateRight_rotateLeft value (by omega)]
    · cases h
  · rintro ⟨byte, rfl, rfl⟩
    rw [Word.rotateLeft_rotateRight _ (by omega), if_pos (setWidth_and_eq_zero byte),
      shiftLeft_or_or_mark hr]

/-- **Immediates.** The field of a constant is a rotation and a byte, which stand for it. -/
theorem encode?_eq_some (h : encode? value = some field) :
    ∃ (rotation : BitVec 4) (byte : BitVec 8),
      field = Word.pack 0#4 0x20#8 0#4 0#4 (rotation ++ byte) ∧
        (byte.setWidth 32).rotateRight (2 * rotation.toNat) = value := by
  obtain ⟨r, hr, hfield⟩ := exists_of_findSome?_eq_some h
  have hlt : r < 16 := mem_range.mp hr
  obtain ⟨byte, hpieces, hvalue⟩ := (withRotation?_eq_some_iff hlt).mp hfield
  refine ⟨BitVec.ofNat 4 r, byte, hpieces, ?_⟩
  rw [toNat_ofNat, Nat.mod_eq_of_lt hlt, hvalue]

/-- Some byte, rotated, is the constant. -/
def Expressible (value : Word) : Prop :=
  ∃ (rotation : BitVec 4) (byte : BitVec 8),
    (byte.setWidth 32).rotateRight (2 * rotation.toNat) = value

theorem not_expressible_of_encode? (h : encode? value = none) : ¬ Expressible value := by
  rintro ⟨rotation, byte, rfl⟩
  have hnone := findSome?_eq_none_iff.mp h rotation.toNat
    (mem_range.mpr rotation.isLt)
  rw [(withRotation?_eq_some_iff rotation.isLt).mpr ⟨byte, rfl, rfl⟩] at hnone
  cases hnone

theorem special_of_encode? (h : encode? value = none) : value ≠ 0 ∧ value ≠ 0x80000000 := by
  constructor
  · rintro rfl
    exact absurd h (by decide)
  · rintro rfl
    exact absurd h (by decide)

/-! ## The field that is chosen -/

/-- The rotation of a field, in steps of two bits. -/
def rotation (field : Word) : Nat := ((field >>> 8) &&& 0xf).toNat

theorem rotation_eq : rotation field = (field.extractLsb' 8 4).toNat := by
  exact Nat.and_two_pow_sub_one_eq_mod _ 4

theorem decode_eq :
    decode field = ((field.extractLsb' 0 8).setWidth 32).rotateRight (2 * rotation field) := by
  have hbyte : field &&& 0xff = (field.extractLsb' 0 8).setWidth 32 := by
    apply eq_of_toNat_eq
    exact Nat.and_two_pow_sub_one_eq_mod _ 8
  rw [decode, hbyte]
  rfl

section Pieces

variable {r : BitVec 4} {byte : BitVec 8}

theorem rotation_pack : rotation (Word.pack 0#4 0x20#8 0#4 0#4 (r ++ byte)) = r.toNat := by
  have hbits : (Word.pack 0#4 0x20#8 0#4 0#4 (r ++ byte)).extractLsb' 8 4 = r := by
    refine eq_of_getLsbD_eq fun i hi => ?_
    simp only [Word.pack, getLsbD_extractLsb', getLsbD_append]
    grind
  rw [rotation_eq, hbits]

theorem decode_pack : decode (Word.pack 0#4 0x20#8 0#4 0#4 (r ++ byte)) =
    (byte.setWidth 32).rotateRight (2 * r.toNat) := by
  have hbits : (Word.pack 0#4 0x20#8 0#4 0#4 (r ++ byte)).extractLsb' 0 8 = byte := by
    refine eq_of_getLsbD_eq fun i hi => ?_
    simp only [Word.pack, getLsbD_extractLsb', getLsbD_append]
    grind
  rw [decode_eq, rotation_pack, hbits]

theorem getLsbD_pack {i : Nat} (hi : 12 ≤ i) :
    (Word.pack 0#4 0x20#8 0#4 0#4 (r ++ byte)).getLsbD i = decide (i = 25) := by
  have habove : (0#4 ++ 0x20#8 ++ 0#4 ++ 0#4 : BitVec 20) = twoPow 20 13 := by decide
  rw [Word.pack, getLsbD_append, if_neg (by omega), habove, getLsbD_twoPow]
  grind

end Pieces

/-- The first rotation that fits a constant gives its field. -/
theorem exists_first_of_encode? (h : encode? value = some field) :
    ∃ r < 16, withRotation? value r = some field ∧ ∀ r' < r, withRotation? value r' = none := by
  obtain ⟨before, r, behind, heq, hr, hnone⟩ := findSome?_eq_some_iff.mp h
  have hlt : r < 16 := mem_range.mp (heq ▸ mem_append_right _ mem_cons_self)
  refine ⟨r, hlt, hr, fun r' hr' => hnone r' ?_⟩
  have hsorted : (before ++ r :: behind).Pairwise (· < ·) := heq ▸ pairwise_lt_range
  have hmem : r' ∈ before ++ r :: behind := heq ▸ mem_range.mpr (Nat.lt_trans hr' hlt)
  -- what stands behind `r` in the range is greater
  have hbehind := (pairwise_cons.mp (pairwise_append.mp hsorted).2.1).1
  grind

theorem withRotation?_decode (field : Word) : withRotation? (decode field) (rotation field) =
      some (Word.pack 0#4 0x20#8 0#4 0#4 (field.extractLsb' 8 4 ++ field.extractLsb' 0 8)) := by
  refine (withRotation?_eq_some_iff (rotation_eq ▸ BitVec.isLt _)).mpr
    ⟨field.extractLsb' 0 8, ?_, decode_eq.symm⟩
  rw [rotation_eq, BitVec.ofNat_toNat, BitVec.setWidth_eq]

/-- The field of a constant that is to be chosen among all that stand for it. -/
structure Canonical (value field : Word) : Prop where
  decodes : decode field = value
  /-- of the bits above the field only the mark is set -/
  marked : ∀ i, 12 ≤ i → field.getLsbD i = decide (i = 25)
  least : ∀ other, rotation other < rotation field → decode other ≠ value

theorem canonical_of_encode? (h : encode? value = some field) : Canonical value field := by
  obtain ⟨r, hr, hfield, hfirst⟩ := exists_first_of_encode? h
  obtain ⟨byte, rfl, hvalue⟩ := (withRotation?_eq_some_iff hr).mp hfield
  have hrotation : (BitVec.ofNat 4 r).toNat = r := Nat.mod_eq_of_lt hr
  refine ⟨?_, fun i hi => getLsbD_pack hi, ?_⟩
  · rw [decode_pack, hrotation, hvalue]
  · rintro other hlt rfl
    rw [rotation_pack, hrotation] at hlt
    cases (withRotation?_decode other).symm.trans (hfirst _ hlt)

theorem Canonical.eq_pack (h : Canonical value field) :
    field = Word.pack 0#4 0x20#8 0#4 0#4 (field.extractLsb' 8 4 ++ field.extractLsb' 0 8) := by
  refine eq_of_getLsbD_eq fun i hi => ?_
  by_cases hlow : i < 12
  · simp only [Word.pack, getLsbD_append, getLsbD_extractLsb']
    grind
  · rw [h.marked i (by omega), getLsbD_pack (by omega)]

theorem Canonical.unique {field' : Word} (h : Canonical value field) (h' : Canonical value field') :
    field = field' := by
  have hrotation : rotation field = rotation field' := by
    have hle := Nat.le_of_not_lt fun hlt => h'.least field hlt h.decodes
    have hge := Nat.le_of_not_lt fun hlt => h.least field' hlt h'.decodes
    omega
  have hfits := withRotation?_decode field
  have hfits' := withRotation?_decode field'
  rw [← h.eq_pack, h.decodes, hrotation] at hfits
  rw [← h'.eq_pack, h'.decodes, hfits] at hfits'
  exact Option.some.inj hfits'

theorem encode?_eq_none_iff : encode? value = none ↔ ∀ field, decode field ≠ value := by
  constructor
  · rintro h field rfl
    exact not_expressible_of_encode? h ⟨field.extractLsb' 8 4, field.extractLsb' 0 8, by
      rw [← rotation_eq, ← decode_eq]⟩
  · intro h
    refine Option.eq_none_iff_forall_ne_some.mpr fun field hfield => ?_
    exact h field (canonical_of_encode? hfield).decodes

/-- **Encoding of immediates.** Encoding inverts decoding: it finds the field of a constant that has
the smallest rotation, and it finds none only if no field stands for the constant. -/
theorem encoding_inverts (value : Word) :
    (∀ field, encode? value = some field ↔ Canonical value field) ∧
      (encode? value = none ↔ ∀ field, decode field ≠ value) := by
  refine ⟨fun field => ⟨canonical_of_encode?, fun h => ?_⟩, encode?_eq_none_iff⟩
  cases hencode : encode? value with
  | none => exact absurd h.decodes (encode?_eq_none_iff.mp hencode field)
  | some field' => rw [(canonical_of_encode? hencode).unique h]

end Arm.Immediate

end ArmLink
