import ArmLink.Arm.Encode.Data
import ArmLink.Proofs.Except
import Mathlib.Algebra.Group.Nat.Defs

/-!
# Words made of pieces

An encoder puts a word together from pieces, each of a few bits at a position of its own. What is
read back is the piece at that position, and does not see the others.
-/

namespace ArmLink

open BitVec

namespace Word

/-- The pieces of an instruction: the condition, the control byte, two registers and the lowest
twelve bits. -/
def pack (cond : BitVec 4) (control : BitVec 8) (rn rd : BitVec 4) (low : BitVec 12) : Word :=
  cond ++ control ++ rn ++ rd ++ low

section Pack

variable (cond cond' rn rn' rd rd' : BitVec 4) (control control' : BitVec 8)
  (low low' : BitVec 12)

theorem pack_or : pack cond control rn rd low ||| pack cond' control' rn' rd' low' =
    pack (cond ||| cond') (control ||| control') (rn ||| rn') (rd ||| rd') (low ||| low') := by
  simp only [pack, ← or_append]

theorem pack_xor : pack cond control rn rd low ^^^ pack cond' control' rn' rd' low' =
    pack (cond ^^^ cond') (control ^^^ control') (rn ^^^ rn') (rd ^^^ rd') (low ^^^ low') := by
  simp only [pack, ← xor_append]

theorem cond_pack : (pack cond control rn rd low).extractLsb' 28 4 = cond := by
  refine eq_of_getLsbD_eq fun i hi => ?_
  simp only [pack, getLsbD_extractLsb', getLsbD_append]
  grind

theorem control_pack : (pack cond control rn rd low).extractLsb' 20 8 = control := by
  refine eq_of_getLsbD_eq fun i hi => ?_
  simp only [pack, getLsbD_extractLsb', getLsbD_append]
  grind

theorem rn_pack : (pack cond control rn rd low).extractLsb' 16 4 = rn := by
  refine eq_of_getLsbD_eq fun i hi => ?_
  simp only [pack, getLsbD_extractLsb', getLsbD_append]
  grind

theorem rd_pack : (pack cond control rn rd low).extractLsb' 12 4 = rd := by
  refine eq_of_getLsbD_eq fun i hi => ?_
  simp only [pack, getLsbD_extractLsb', getLsbD_append]
  grind

theorem low_pack : (pack cond control rn rd low).extractLsb' 0 12 = low :=
  extractLsb'_append_eq_right

end Pack

/-! ## Pieces by themselves -/

theorem eq_pack_low {x : BitVec 12} : x.setWidth 32 = pack 0#4 0#8 0#4 0#4 x := by
  rw [setWidth_eq_append (by decide)]
  rfl

theorem eq_pack_lowest : ∀ x : BitVec 4, x.setWidth 32 = pack 0#4 0#8 0#4 0#4 (0#8 ++ x) := by
  decide

theorem shiftLeft_eq_pack_rn : ∀ x : BitVec 4,
    (x.setWidth 32 : Word) <<< 16 = pack 0#4 0#8 x 0#4 0#12 := by
  decide

theorem shiftLeft_eq_pack_rd : ∀ x : BitVec 4,
    (x.setWidth 32 : Word) <<< 12 = pack 0#4 0#8 0#4 x 0#12 := by
  decide

theorem ofNat_eq_setWidth {n k : Nat} (h : k < 2 ^ n) (hn : n ≤ 32) :
    BitVec.ofNat 32 k = (BitVec.ofNat n k).setWidth 32 := by
  rw [setWidth_ofNat_of_le_of_lt hn h]

end Word

namespace Arm

/-- The code of a condition as a piece. -/
def Condition.nibble (c : Condition) : BitVec 4 := c.code.setWidth 4

theorem Condition.field_eq_pack {c : Condition} :
    c.field = Word.pack c.nibble 0#8 0#4 0#4 0#12 := by
  cases c <;> rfl

namespace Encode

theorem register_eq_ok {r : Register} {w : Word} (h : register r = .ok w) :
    ∃ x : BitVec 4, r = x.toNat ∧ w = x.setWidth 32 := by
  unfold register at h
  split at h
  · rename_i hlt
    cases h
    exact ⟨BitVec.ofNat 4 r, (Nat.mod_eq_of_lt hlt).symm, Word.ofNat_eq_setWidth hlt (by decide)⟩
  · cases h

theorem register_eq_error {r : Register} {e : EncodeError} (h : register r = .error e) :
    e = .noRegister r ∧ 16 ≤ r := by
  unfold register at h
  split at h
  · cases h
  · rename_i hlt
    cases h
    exact ⟨rfl, Nat.le_of_not_lt hlt⟩

end Encode

end Arm

end ArmLink
