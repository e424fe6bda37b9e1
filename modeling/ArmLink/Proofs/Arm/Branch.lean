import ArmLink.Arm.Machine
import ArmLink.Proofs.Except
import Mathlib.Algebra.Group.Int.Defs

/-!
# The distance of a branch

The low 24 bits of a branch count words, and wrap around. Sending a branch further changes nothing
else, and adds to its displacement as long as the sum is within reach. Since a branch is its top
byte and its displacement, that says which word a branch is resolved to.
-/

namespace ArmLink

open BitVec

variable {w v words' words word : Word}

namespace Word

theorem getLsbD_mask (hi i : Nat) :
    (mask 0 hi).getLsbD i = (decide (i < 32) && decide (i < hi)) := by
  simp [mask]

theorem getLsbD_withField (hi i : Nat) :
    (w.withField 0 hi v).getLsbD i = if i < hi then v.getLsbD i else w.getLsbD i := by
  rw [withField, getLsbD_or, getLsbD_and, getLsbD_and, getLsbD_not,
    shiftLeft_zero, getLsbD_mask]
  by_cases hi' : i < 32
  · by_cases hlt : i < hi <;> simp [hi', hlt]
  · rw [getLsbD_of_ge v _ (by omega), getLsbD_of_ge w _ (by omega)]
    simp

def topByte (w : Word) : Word := w >>> 24

def low (w : Word) : BitVec 24 := w.setWidth 24

theorem low_add : (w + v).low = w.low + v.low := setWidth_add w v (by decide)

theorem low_ofInt {n : Int} : low (.ofInt 32 n) = .ofInt 24 n := by
  apply eq_of_toNat_eq
  rw [low, toNat_setWidth, toNat_ofInt, toNat_ofInt]
  omega

theorem eq_of_low (hlow : w.low = v.low) (htop : w.topByte = v.topByte) : w = v := by
  refine eq_of_getLsbD_eq fun i hi => ?_
  by_cases hlt : i < 24
  · have hbit := congrArg (·.getLsbD i) hlow
    simpa only [low, getLsbD_setWidth, hlt, decide_true, Bool.true_and] using hbit
  · have hbit := congrArg (·.getLsbD (i - 24)) htop
    simpa only [topByte, getLsbD_ushiftRight, Nat.add_sub_cancel' (Nat.le_of_not_lt hlt)]
      using hbit

end Word

namespace Arm.Branch

theorem displacement_eq : displacement w = w.low.toInt * 4 := by
  have hbits : (w.field 0 24).extractLsb' 0 24 = w.low := by
    refine eq_of_getLsbD_eq fun i hi => ?_
    simp [Word.field, Word.low, Word.getLsbD_mask, hi]
    omega
  rw [displacement, Word.signedField, hbits]

theorem topByte_withDistance (w words : Word) : (withDistance w words).topByte = w.topByte := by
  refine eq_of_getLsbD_eq fun i hi => ?_
  rw [Word.topByte, Word.topByte, getLsbD_ushiftRight, getLsbD_ushiftRight,
    withDistance, Word.getLsbD_withField, if_neg (by omega)]

theorem low_withDistance : (withDistance w words).low = words.low := by
  refine eq_of_getLsbD_eq fun i hi => ?_
  rw [Word.low, Word.low, getLsbD_setWidth, getLsbD_setWidth, withDistance,
    Word.getLsbD_withField, if_pos hi]

/-- **Top byte.** The condition and the opcode of a branch stay as they are. -/
theorem topByte_advance : (advance w words).topByte = w.topByte :=
  topByte_withDistance w _

theorem low_advance : (advance w words).low = w.low + words.low := by
  rw [advance, low_withDistance, Word.low_add]

/-- **Advance.** A branch sent further within its reach has the sum as its displacement. -/
theorem displacement_advance {words : Int} (h : InReach (displacement w + words * 4)) :
    displacement (advance w (.ofInt 32 words)) = displacement w + words * 4 := by
  rw [displacement_eq] at h ⊢
  rw [displacement_eq, low_advance, Word.low_ofInt, toInt_add, toInt_ofInt]
  unfold InReach leastReach reachEnd at h
  have hlow : (w.low.toInt + words.bmod (2 ^ 24)).bmod (2 ^ 24) = w.low.toInt + words := by
    rw [Int.add_bmod_bmod]
    exact Int.bmod_eq_of_le (by omega) (by omega)
  omega

theorem inReach_displacement (w : Word) : InReach (displacement w) := by
  have hlow := le_toInt w.low
  have hhigh := toInt_lt (x := w.low)
  rw [displacement_eq]
  unfold InReach leastReach reachEnd
  omega

theorem eq_of_displacement (htop : w.topByte = v.topByte) (h : displacement w = displacement v) :
    w = v := by
  rw [displacement_eq, displacement_eq] at h
  exact Word.eq_of_low (eq_of_toInt_eq (by omega)) htop

/-! ## Distances that wrap around -/

/-- Only the low bits of a distance matter. -/
theorem advance_congr (w : Word) (h : words.low = words'.low) :
    advance w words = advance w words' := by
  refine Word.eq_of_low ?_ ?_
  · rw [low_advance, low_advance, h]
  · rw [topByte_advance, topByte_advance]

theorem advance_advance : advance (advance w words) words' = advance w (words + words') := by
  refine Word.eq_of_low ?_ ?_
  · rw [low_advance, low_advance, low_advance, Word.low_add, BitVec.add_assoc]
  · rw [topByte_advance, topByte_advance, topByte_advance]

/-- A distance computed from addresses that are whole words apart sends a branch as far. -/
theorem withDistance_eq_advance {symbol place : Nat} {words : Int} (w : Word)
    (h : (symbol : Int) - place = words * 4) : withDistance w
        ((.ofNat 32 symbol + .ofInt 32 (displacement w) - .ofNat 32 place : Word) >>> 2) =
      advance w (.ofInt 32 words) := by
  have hdistance : (.ofNat 32 symbol + .ofInt 32 (displacement w) - .ofNat 32 place : Word) =
      .ofInt 32 ((w.low.toInt + words) * 4) := by
    rw [← ofInt_natCast, ← ofInt_natCast, ← ofInt_add, sub_eq_add_neg,
      ← ofInt_neg, ← ofInt_add, displacement_eq]
    congr 1
    omega
  have hlow : w.low + .ofInt 24 words = .ofInt 24 (w.low.toInt + words) := by
    rw [ofInt_add, ofInt_toInt]
  refine Word.eq_of_low ?_ ?_
  · rw [low_withDistance, low_advance, Word.low_ofInt, hlow, hdistance]
    apply eq_of_toNat_eq
    rw [Word.low, toNat_setWidth, toNat_ushiftRight, toNat_ofInt,
      toNat_ofInt, Nat.shiftRight_eq_div_pow]
    omega
  · rw [topByte_withDistance, topByte_advance]

end Arm.Branch

namespace Arm.Machine

variable {i : Inputs}

/-- A displacement and a distance of 64 bits do not wrap around into reach. -/
theorem inReach_wrapped {w : Word} {distance : Word64} :
    Branch.InReach (BitVec.ofInt 64 (Branch.displacement w + distance.toInt)).toInt ↔
      Branch.InReach (Branch.displacement w + distance.toInt) := by
  have hreach := Branch.inReach_displacement w
  have hlow := distance.le_toInt
  have hhigh := distance.toInt_lt
  unfold Branch.InReach Branch.leastReach Branch.reachEnd at *
  rw [toInt_ofInt, Int.bmod_def]
  omega

/-- A branch that was resolved is within reach, and sent by its distance. -/
theorem branch_eq_ok (h : branch i = .ok word) :
    Branch.InReach (Branch.displacement (i.addend.setWidth 32) + (i.target - i.place).toInt) ∧
      word = Branch.advance (i.addend.setWidth 32)
        (.ofInt 32 ((i.target - i.place).toInt / 4)) := by
  unfold branch at h
  dsimp only at h
  split at h
  · rename_i hreach
    cases h
    exact ⟨inReach_wrapped.mp hreach, rfl⟩
  · cases h

/-- A branch can be resolved if and only if that brings it within reach. -/
theorem exists_branch_iff : (∃ word, branch i = .ok word) ↔
    Branch.InReach (Branch.displacement (i.addend.setWidth 32) + (i.target - i.place).toInt) := by
  constructor
  · rintro ⟨word, h⟩
    exact (branch_eq_ok h).1
  · exact fun hreach => ⟨_, if_pos (inReach_wrapped.mpr hreach)⟩

/-- A branch that was resolved goes further than before by the distance to its target. -/
theorem displacement_of_branch (h : branch i = .ok word) (hdvd : 4 ∣ (i.target - i.place).toInt) :
    word.topByte = Word.topByte (i.addend.setWidth 32) ∧
      Branch.displacement word =
        Branch.displacement (i.addend.setWidth 32) + (i.target - i.place).toInt := by
  obtain ⟨hreach, rfl⟩ := branch_eq_ok h
  have hwords := Int.ediv_mul_cancel hdvd
  rw [← hwords] at hreach
  rw [Branch.displacement_advance hreach, Branch.topByte_advance, hwords]
  exact ⟨rfl, rfl⟩

theorem branch_eq_error {reason : ResolveError} (h : branch i = .error reason) :
    ∃ far, ¬ Branch.InReach far ∧ reason = .farBranch far := by
  unfold branch at h
  dsimp only at h
  split at h
  · cases h
  · rename_i hreach
    cases h
    exact ⟨_, hreach, rfl⟩

theorem resolve_call_eq_ok {value : Option Word64} :
    resolve? .call i = .ok value ↔ ∃ w, branch i = .ok w ∧ some (w.setWidth 64) = value :=
  bind_eq_ok.trans (exists_congr fun _ => and_congr_right fun _ => pure_eq_ok)

/-! ## Addresses of 32 bits -/

theorem toInt_sub_setWidth (a b : Word) :
    (a.setWidth 64 - b.setWidth 64 : Word64).toInt = a.toNat - b.toNat := by
  rw [toInt_sub, toInt_setWidth, toInt_setWidth, Int.bmod_eq_of_le (n := a.toNat) (by omega)
    (by omega), Int.bmod_eq_of_le (n := b.toNat) (by omega) (by omega)]
  exact Int.bmod_eq_of_le (by omega) (by omega)

/-- A branch in the low half of an addend, with 32-bit addresses for its place and its target. -/
def callInputs (insn upper target place : Word) (got : Option Word64) : Inputs :=
  ⟨target.setWidth 64, upper ++ insn, place.setWidth 64, got⟩

theorem exists_call_iff (insn upper target place : Word) (got : Option Word64) :
    (∃ w, branch (callInputs insn upper target place got) = .ok w) ↔
      Branch.InReach (Branch.displacement insn + target.toNat - place.toNat) := by
  rw [exists_branch_iff, callInputs, setWidth_append_eq_right, toInt_sub_setWidth,
    Int.add_sub_assoc]

theorem displacement_call {insn upper target place : Word} {got : Option Word64}
    (haligned : target.toNat % 4 = place.toNat % 4)
    (h : branch (callInputs insn upper target place got) = .ok w) : w.topByte = insn.topByte ∧
      Branch.displacement w = Branch.displacement insn + target.toNat - place.toNat := by
  have hdistance := toInt_sub_setWidth target place
  have hgoes := displacement_of_branch h (by rw [callInputs, hdistance]; omega)
  rw [callInputs, setWidth_append_eq_right, hdistance] at hgoes
  rwa [Int.add_sub_assoc]

/-- **Resolution of branches.** A branch is resolved if and only if that brings it within reach, and
then to the only word that has its top byte and the displacement that is asked for. -/
theorem branch_resolution_exact (insn upper target place : Word) (got : Option Word64)
    (haligned : target.toNat % 4 = place.toNat % 4) :
    ((∃ value, resolve? .call (callInputs insn upper target place got) = .ok value) ↔
      -2 ^ 25 ≤ Branch.displacement insn + target.toNat - place.toNat ∧
        Branch.displacement insn + target.toNat - place.toNat < 2 ^ 25) ∧
    ∀ value, resolve? .call (callInputs insn upper target place got) = .ok value ↔
      ∃ w : Word, value = some (w.setWidth 64) ∧ w.topByte = insn.topByte ∧
        Branch.displacement w = Branch.displacement insn + target.toNat - place.toNat := by
  constructor
  · have hreach : Branch.InReach (Branch.displacement insn + target.toNat - place.toNat) ↔
        -2 ^ 25 ≤ Branch.displacement insn + target.toNat - place.toNat ∧
          Branch.displacement insn + target.toNat - place.toNat < 2 ^ 25 := Iff.rfl
    rw [← hreach, ← exists_call_iff insn upper target place got]
    constructor
    · rintro ⟨value, h⟩
      exact (resolve_call_eq_ok.mp h).imp fun _ => And.left
    · rintro ⟨w, h⟩
      exact ⟨_, resolve_call_eq_ok.mpr ⟨w, h, rfl⟩⟩
  · intro value
    rw [resolve_call_eq_ok]
    constructor
    · rintro ⟨w, h, rfl⟩
      exact ⟨w, rfl, displacement_call haligned h⟩
    · rintro ⟨w, rfl, htop, hw⟩
      -- the displacement of `w` is within reach, so the branch is resolved, and to nothing but `w`
      obtain ⟨v, hv⟩ := (exists_call_iff insn upper target place got).mpr
        (hw ▸ Branch.inReach_displacement w)
      obtain ⟨htop', hv'⟩ := displacement_call haligned hv
      rw [Branch.eq_of_displacement (htop.trans htop'.symm) (hw.trans hv'.symm)]
      exact ⟨v, hv, rfl⟩

/-- A call at a high address that is sent back almost as far as it can go. -/
theorem branch_resolution_exact_sample : (0xfe000018#32).toNat % 4 = (0xfffffff8#32).toNat % 4 ∧
      ∃ w : Word, resolve? .call (callInputs 0xebfffffe 0xffffffff 0xfe000018 0xfffffff8 none) =
          .ok (some (w.setWidth 64)) ∧ w.topByte = 0xeb ∧
        Branch.displacement w = -0x1ffffe8 := by
  have haligned : (0xfe000018#32).toNat % 4 = (0xfffffff8#32).toNat % 4 := by decide
  obtain ⟨hresolves, hword⟩ :=
    branch_resolution_exact 0xebfffffe 0xffffffff 0xfe000018 0xfffffff8 none haligned
  obtain ⟨value, hvalue⟩ := hresolves.mpr (by decide)
  obtain ⟨w, rfl, htop, hw⟩ := (hword value).mp hvalue
  exact ⟨haligned, w, hvalue, htop, hw⟩

end Arm.Machine

end ArmLink
