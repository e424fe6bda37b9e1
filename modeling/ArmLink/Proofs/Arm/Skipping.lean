import ArmLink.Proofs.Arm.Guards

/-!
# Instructions whose condition fails

If the condition of an instruction fails, all words that it became have to do nothing together: each
instruction among them is passed over, and each literal is branched past.
-/

namespace ArmLink.Arm

open Cpu Word

/-- Where the instructions are among words. What stands behind a branch past a literal is none. -/
def instructionAddresses (a : Word) : List Word → List Word
  | [] => []
  | [_] => [a]
  | w :: v :: rest =>
    if w = Encode.skipLiteral then a :: instructionAddresses (a + 8) rest
    else a :: instructionAddresses (a + 4) (v :: rest)

theorem instructionAddresses_cons {w : Word} (h : w ≠ Encode.skipLiteral) (a : Word)
    (rest : List Word) :
    instructionAddresses a (w :: rest) = a :: instructionAddresses (a + 4) rest := by
  cases rest with
  | nil => rfl
  | cons v rest => rw [instructionAddresses, if_neg h]

/-- **Passed over.** Guarded words whose condition fails change nothing but the program counter, and
only the instructions among them are fetched. -/
theorem runs_of_guarded {cond : Condition} {ws : List Word} (h : Guarded cond ws) {s : Cpu}
    (hcode : s.memory.Holds s.pc ws) (hcond : cond.holds s.flags = false) :
    Runs s ((instructionAddresses s.pc ws).map .fetch)
      (s.goto (s.pc + .ofNat 32 (4 * ws.length))) := by
  have hne {w : Word} (hw : Headed cond w) : w ≠ Encode.skipLiteral := by
    rintro rfl
    have hal := condition?_of_headed hw
    cases hal
    cases hcond
  induction h generalizing s with
  | nil =>
    have hend : s.goto (s.pc + .ofNat 32 (4 * ([] : List Word).length)) = s := by
      simp [Cpu.goto]
    rw [hend]
    exact .refl s
  | word hw _ ih =>
    have hfirst := runs_of_fails (condition?_of_headed (hcode.1 ▸ hw)) hcond
    have hrest := ih (s := s.goto (s.pc + 4)) hcode.2 hcond
    rw [goto_goto, goto_pc, Memory.next_word] at hrest
    rw [instructionAddresses_cons (hne hw)]
    exact hfirst.trans hrest
  | literal hw _ ih =>
    have hfirst := runs_of_fails (condition?_of_headed (hcode.1 ▸ hw)) hcond
    have hskip := Encode.runs_skipLiteral (s := s.goto (s.pc + 4)) hcode.2.1
    have hpast : s.pc + 4 + 8 = s.pc + 4 + 4 + 4 := by
      rw [BitVec.add_assoc (s.pc + 4)]
      rfl
    have hrest := ih (s := s.goto (s.pc + 4 + 4 + 4)) hcode.2.2.2 hcond
    rw [goto_goto, goto_pc, Memory.next_word, Memory.next_word, Memory.next_word] at hrest
    rw [instructionAddresses_cons (hne hw), instructionAddresses, if_pos rfl, hpast]
    rw [goto_goto, goto_pc, hpast] at hskip
    exact hfirst.trans (hskip.trans hrest)

/-- **Failed conditions.** An instruction whose condition fails changes nothing, and execution
continues just after its last word. Its instructions are fetched one after the other and nothing
else is, so that no literal among them is taken for an instruction. -/
theorem failed_condition_does_nothing {i : Instruction} {pc : Nat} {labels : String → Option Nat}
    {code : Code} (h : encode i pc labels = .ok code)
    (hword : ∀ value symbol, i.form ≠ .word value symbol) {s : Cpu}
    (hcode : s.memory.Holds s.pc code.words) (hcond : i.guard.holds s.flags = false) :
    Runs s ((instructionAddresses s.pc code.words).map .fetch)
      (s.goto (s.pc + .ofNat 32 code.size)) :=
  runs_of_guarded (wellMade_of_encode h hword).words hcode hcond

/-- A load from far away, if the last comparison found less. -/
def loadFar : Instruction := ⟨.movd, .lt, .none, .floatLoad 0x12345678 1 2, none⟩

/-- The words of `loadFar`: the offset, its sum with the base, and then the load. -/
def loadFarWords : List Word := [0xb59fb000, 0xea000000, 0x12345678, 0xb081b00b, 0xbd9b2b00]

theorem failed_condition_does_nothing_sample :
    let s := Cpu.before loadFarWords ⟨false, true, true, false⟩
    Runs s [.fetch 0, .fetch 4, .fetch 12, .fetch 16] (s.goto 20) := by
  have hcode : encode loadFar 0 (fun _ => none) = .ok ⟨loadFarWords, none⟩ := by
    decide +kernel
  have hholds : (Memory.ofWords loadFarWords).Holds 0 loadFarWords := by
    refine ⟨?_, ?_, ?_, ?_, ?_, trivial⟩ <;> decide +kernel
  exact failed_condition_does_nothing hcode nofun
    (s := .before loadFarWords ⟨false, true, true, false⟩) hholds rfl

end ArmLink.Arm
