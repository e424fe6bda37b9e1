import ArmLink.Arm.Encode
import ArmLink.Proofs.Arm.Branch
import Mathlib.Algebra.Group.Nat.Defs

/-!
# Branches to symbols

A branch to a symbol is encoded before the symbol has an address: the offset from the symbol waits
in the addend of a relocation, in the 24 bits that count words. Resolving the relocation adds the
distance from the branch to the symbol. Only the sum is checked, and by then the offset may have
wrapped around.
-/

namespace ArmLink.Arm

/-! ## Displacements in 24 bits -/

namespace Branch

/-- What the field of a branch makes of a displacement: it counts words in 24 bits, and wraps
around. -/
def carried (bytes : Int) : Int := (bytes / 4).bmod (2 ^ 24) * 4

/-- Whole words are carried unchanged if and only if they are within reach. -/
theorem carried_eq_iff {bytes : Int} (hdvd : 4 ∣ bytes) :
    carried bytes = bytes ↔ InReach bytes := by
  have hwords := Int.ediv_mul_cancel hdvd
  unfold InReach leastReach reachEnd carried
  constructor
  · intro heq
    have hlow : -(2 ^ 24 / 2 : Int) ≤ (bytes / 4).bmod (2 ^ 24) := Int.le_bmod (by decide)
    have hhigh : (bytes / 4).bmod (2 ^ 24) < (2 ^ 24 + 1) / 2 := Int.bmod_lt (by decide)
    omega
  · rintro ⟨hlow, hhigh⟩
    rw [Int.bmod_eq_of_le (by omega) (by omega), hwords]

theorem displacement_withDistance {w : Word} {bytes : Int} :
    displacement (withDistance w (.ofInt 32 (bytes / 4))) = carried bytes := by
  rw [displacement_eq, low_withDistance, Word.low_ofInt, BitVec.toInt_ofInt]
  rfl

end Branch

open Branch (InReach displacement readAhead carried)

/-! ## Encoding and resolving -/

theorem encode_symbol {i : Instruction} {name : String} {offset : Int} {pc : Nat}
    {labels : String → Option Nat} {code : Code} (hform : i.form = .branch (.symbol name offset))
    (h : encode i pc labels = .ok code) :
    ∃ word insn : Word, Encode.branchWord i.op i.condition i.suffixes = .ok word ∧
      code = ⟨[word], some (.pending 0 4 .call (some name) (insn.setWidth 64))⟩ ∧
      insn.topByte = word.topByte ∧ displacement insn = carried (offset - readAhead) := by
  simp only [encode, Encode.form, hform] at h
  obtain ⟨word, hword, ⟨⟩⟩ := bind_pure_eq_ok.mp h
  exact ⟨word, _, hword, rfl, Branch.topByte_withDistance .., Branch.displacement_withDistance ..⟩

namespace Machine

/-- Addresses of whole words are whole words apart. -/
theorem dvd_toInt_sub {target place : Word64} (htarget : 4 ∣ target.toInt)
    (hplace : 4 ∣ place.toInt) : 4 ∣ (target - place).toInt := by
  rw [BitVec.toInt_sub, Int.bmod_def]
  omega

/-- A branch is resolved if and only if it comes within reach that way, and then it goes as far from
the target as it went from its own place before. -/
theorem resolve_branch {target place : Word64} (insn : Word) (got : Option Word64)
    (hdvd : 4 ∣ (target - place).toInt) :
    ((∃ value, resolve? .call ⟨target, insn.setWidth 64, place, got⟩ = .ok value) ↔
        InReach (displacement insn + (target - place).toInt)) ∧
      ∀ value, resolve? .call ⟨target, insn.setWidth 64, place, got⟩ = .ok value →
        ∃ w : Word, value = some (w.setWidth 64) ∧ w.topByte = insn.topByte ∧
          displacement w = displacement insn + (target - place).toInt := by
  have hinsn : (insn.setWidth 64).setWidth 32 = insn := by
    rw [BitVec.setWidth_setWidth_of_le _ (by decide), BitVec.setWidth_eq]
  constructor
  · have hreach := exists_branch_iff (i := ⟨target, insn.setWidth 64, place, got⟩)
    rw [hinsn] at hreach
    rw [← hreach]
    constructor
    · rintro ⟨value, h⟩
      exact (resolve_call_eq_ok.mp h).imp fun _ => And.left
    · rintro ⟨word, h⟩
      exact ⟨_, resolve_call_eq_ok.mpr ⟨word, h, rfl⟩⟩
  · intro value h
    obtain ⟨w, hw, rfl⟩ := resolve_call_eq_ok.mp h
    have hgoes := displacement_of_branch hw hdvd
    rw [hinsn] at hgoes
    exact ⟨w, rfl, hgoes⟩

end Machine

/-! ## Where branches to symbols go -/

/-- **Branches to symbols.** A branch to an offset from a symbol that was encoded is resolved if and
only if it comes within reach with what the field carries of the offset. It then goes to the symbol
with what was carried, and that is where it should go if and only if the offset, from where the
branch reads the program counter, is within reach. Addresses are compared by their distance from the
place of the branch, which is a signed difference of 64 bits. -/
theorem symbolBranch_lands {i : Instruction} {name : String} {offset : Int} {pc : Nat}
    {labels : String → Option Nat} {code : Code} (hform : i.form = .branch (.symbol name offset))
    (hoffset : 4 ∣ offset) (h : encode i pc labels = .ok code) :
    ∃ (word : Word) (addend : Word64), Encode.branchWord i.op i.condition i.suffixes = .ok word ∧
      code = ⟨[word], some (.pending 0 4 .call (some name) addend)⟩ ∧
      ∀ (target place : Word64) (got : Option Word64), 4 ∣ target.toInt → 4 ∣ place.toInt →
        ((∃ value, Machine.resolve? .call ⟨target, addend, place, got⟩ = .ok value) ↔
          InReach (carried (offset - readAhead) + (target - place).toInt)) ∧
        ∀ value, Machine.resolve? .call ⟨target, addend, place, got⟩ = .ok value →
          ∃ w : Word, value = some (w.setWidth 64) ∧ w.topByte = word.topByte ∧
            readAhead + displacement w =
              (target - place).toInt + readAhead + carried (offset - readAhead) ∧
            (readAhead + displacement w = (target - place).toInt + offset ↔
              InReach (offset - readAhead)) := by
  obtain ⟨word, insn, hword, hcode, htop, hinsn⟩ := encode_symbol hform h
  refine ⟨word, insn.setWidth 64, hword, hcode, fun target place got htarget hplace => ?_⟩
  obtain ⟨hresolves, hlands⟩ :=
    Machine.resolve_branch insn got (Machine.dvd_toInt_sub htarget hplace)
  rw [hinsn] at hresolves hlands
  refine ⟨hresolves, fun value hvalue => ?_⟩
  obtain ⟨w, hw, htop', hgoes⟩ := hlands value hvalue
  have hdvd : 4 ∣ offset - readAhead := Int.dvd_sub hoffset (by decide)
  refine ⟨w, hw, htop'.trans htop, by omega, ?_⟩
  rw [← Branch.carried_eq_iff hdvd]
  omega

/-- A call of a place in a symbol. -/
def callInto (offset : Int) : Instruction where
  op := .bl
  form := .branch (.symbol "f" offset)

theorem symbolBranch_lands_sample : encode (callInto 0x2000004) 0 (fun _ => none) =
        .ok ⟨[0xeb000000], some (.pending 0 4 .call (some "f") 0xeb7fffff)⟩ ∧
      4 ∣ (0x2000004 : Int) ∧ InReach (0x2000004 - readAhead) ∧
      ∃ w : Word, Machine.resolve? .call ⟨0x10c04, 0xeb7fffff, 0x10c04, none⟩ =
          .ok (some (w.setWidth 64)) ∧ w.topByte = 0xeb ∧
        readAhead + displacement w = (0x10c04#64 - 0x10c04#64).toInt + 0x2000004 := by
  have hencode : encode (callInto 0x2000004) 0 (fun _ => none) =
      .ok ⟨[0xeb000000], some (.pending 0 4 .call (some "f") 0xeb7fffff)⟩ := rfl
  have hreach : InReach (0x2000004 - readAhead) := by decide
  obtain ⟨word, addend, hword, hcode, hlands⟩ :=
    symbolBranch_lands (i := callInto 0x2000004) rfl (by decide) hencode
  cases hcode
  obtain ⟨hresolves, hgoes⟩ := hlands 0x10c04 0x10c04 none (by decide) (by decide)
  obtain ⟨value, hvalue⟩ := hresolves.mpr (by decide)
  obtain ⟨w, rfl, htop, -, hright⟩ := hgoes value hvalue
  exact ⟨hencode, by decide, hreach, w, hvalue, htop, hright.mpr hreach⟩

/-- A call of a place 64 MiB behind a symbol is encoded as a call of the symbol. -/
theorem symbolBranch_strays : 4 ∣ (0x4000000 : Int) ∧
      encode (callInto 0x4000000) 0 (fun _ => none) =
        .ok ⟨[0xeb000000], some (.pending 0 4 .call (some "f") 0xebfffffe)⟩ ∧
      Machine.resolve? .call ⟨0x10c04, 0xebfffffe, 0x10c00, none⟩ = .ok (some 0xebffffff) ∧
      0x10c00 + readAhead + displacement 0xebffffff = 0x10c04 ∧
      0x10c00 + readAhead + displacement 0xebffffff ≠ 0x10c04 + 0x4000000 :=
  ⟨by decide, rfl, rfl, by decide, by decide⟩

end ArmLink.Arm
