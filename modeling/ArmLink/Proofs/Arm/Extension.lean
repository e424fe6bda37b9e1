import ArmLink.Proofs.Arm.Transfers

/-!
# Sign and zero extension

A register is extended by two shifts, to the left and back. Both are made under the same condition,
and if they set the flags, the second one looks at the flags of the first.
-/

namespace ArmLink

/-! ## Shifts back and forth -/

namespace Word

theorem shiftLeft_ushiftRight_self (w : Word) {n : Nat} (hn : n < 32) :
    (w <<< n) >>> n = (w.setWidth (32 - n)).setWidth 32 := by
  refine BitVec.eq_of_getLsbD_eq fun k hk => ?_
  grind

theorem shiftLeft_sshiftRight_self (w : Word) {n : Nat} (hn : n < 32) :
    (w <<< n).sshiftRight n = (w.setWidth (32 - n)).signExtend 32 := by
  refine BitVec.eq_of_getLsbD_eq fun k hk => ?_
  grind

end Word

namespace Arm

open Cpu
open Word (pack)

/-! ## What is asked for -/

def Format.extend (format : Format) (w : Word) : Word :=
  match format with
  | byte => (w.setWidth 8).setWidth 32
  | signedByte => (w.setWidth 8).signExtend 32
  | half => (w.setWidth 16).setWidth 32
  | signedHalf => (w.setWidth 16).signExtend 32
  | _ => w

/-- The bits of a word that numbers of a format leave. -/
def Format.spare (format : Format) : Nat := 32 - 8 * format.size

/-- How the spare bits are filled. -/
def Format.fill : Format → Shift
  | signedByte | signedHalf => .asr
  | _ => .lsr

/-- The formats that registers are extended from. -/
def Format.isNarrow : Format → Bool
  | byte | signedByte | half | signedHalf => true
  | _ => false

/-- A number is moved to the upper end of the word and back again. -/
theorem Format.fill_apply {format : Format} (h : format.isNarrow = true) (w : Word) (carry : Bool) :
    (format.fill.apply format.spare (w <<< format.spare) carry).1 = format.extend w := by
  cases format with
  | byte => exact Word.shiftLeft_ushiftRight_self w (n := 24) (by decide)
  | signedByte => exact Word.shiftLeft_sshiftRight_self w (n := 24) (by decide)
  | half => exact Word.shiftLeft_ushiftRight_self w (n := 16) (by decide)
  | signedHalf => exact Word.shiftLeft_sshiftRight_self w (n := 16) (by decide)
  | _ => cases h

/-- The flags that a shift to the left sets. -/
def Flags.shifted (f : Flags) (w : Word) (amount : Nat) : Flags :=
  ⟨(w <<< amount).msb, w <<< amount = 0, w.getLsbD (32 - amount), f.overflow⟩

/-- Whether the second shift is made: if the first one sets the flags, the condition has to hold for
them as well. -/
def Instruction.shiftsBack (i : Instruction) (format : Format) (w : Word) (f : Flags) : Bool :=
  !i.suffixes.setFlags || i.condition.holds (f.shifted w format.spare)

namespace Encode

variable {i : Instruction} {rm rd : Register} {shift : Shift} {n : Nat} {w : Word} {s : Cpu}

section

variable (h : shiftMove i rm shift (.constant n) rd = .ok w)
include h

theorem shiftMove_eq_ok :
    ∃ (x y : BitVec 4) (amount : BitVec 5), rm = x.toNat ∧ rd = y.toNat ∧ n = amount.toNat ∧
      w = pack i.condition.nibble (Operation.mov.control false i.suffixes.setFlags) 0#4 y
        (shiftLow amount shift x) := by
  obtain ⟨_, hoperand, h⟩ := bind_eq_ok.mp h
  obtain ⟨x, amount, rfl, rfl, rfl⟩ := shiftedRegister_eq_ok hoperand
  obtain ⟨_, hy, h⟩ := bind_eq_ok.mp h
  obtain ⟨y, rfl, rfl⟩ := register_eq_ok hy
  cases pure_eq_ok.mp h
  refine ⟨x, y, amount, rfl, rfl, rfl, ?_⟩
  have hmove : moveBase i.condition i.suffixes = dataProcessing .movw i.condition i.suffixes := rfl
  rw [hmove, dataProcessing_eq rfl, Word.eq_pack_low, Word.shiftLeft_eq_pack_rd]
  simp only [Word.pack_or, BitVec.or_zero, BitVec.zero_or, Suffixes.sets, Operation.isComparison,
    Bool.or_false]

theorem reads_shiftMove (hrd : rd ≠ .pc) : ∃ rn, Reads w i.condition
      (.compute .mov i.suffixes.setFlags rn rd (.shifted rm shift n)) := by
  obtain ⟨x, y, amount, rfl, rfl, rfl, rfl⟩ := shiftMove_eq_ok h
  exact ⟨_, reads_of_pack (decode?_shifted _ _ _ _ _ _ nofun fun _ _ => hrd)⟩

theorem runs_shiftMove (hrd : rd ≠ .pc) (hword : s.memory.word s.pc = w)
    (hcond : i.condition.holds s.flags = true) :
    Runs s [.fetch s.pc] ((s.goto (s.pc + 4)).compute .mov i.suffixes.setFlags rd 0
      (shift.apply n (s.read rm) s.flags.carry).1 (shift.apply n (s.read rm) s.flags.carry).2) := by
  obtain ⟨rn, hreads⟩ := reads_shiftMove h hrd
  rw [← hword] at hreads
  exact runs_compute hreads hcond rfl

end

/-- What the two shifts of an extension have done when they are over. -/
structure Extended (i : Instruction) (format : Format) (rm rd : Register) (s s' : Cpu) : Prop where
  pc : s'.pc = s.pc + 8
  registers : s'.registers = Function.update s.registers rd
    (if i.shiftsBack format (s.registers rm) s.flags then format.extend (s.registers rm)
      else s.registers rm <<< format.spare)
  floats : s'.floats = s.floats
  memory : s'.memory = s.memory
  flags : i.suffixes.setFlags = false → s'.flags = s.flags

/-- The two shifts of an extension. The second one is passed over if the first one has set the flags
so that the condition fails. -/
theorem runs_extend {format : Format} {left right : Word} (hformat : format.isNarrow = true)
    (hleft : shiftMove i rm .lsl (.constant format.spare) rd = .ok left)
    (hright : shiftMove i rd format.fill (.constant format.spare) rd = .ok right)
    (hrm : rm ≠ .pc) (hrd : rd ≠ .pc) (hcode : s.memory.Holds s.pc [left, right])
    (hcond : i.condition.holds s.flags = true) :
    ∃ s', Runs s [.fetch s.pc, .fetch (s.pc + 4)] s' ∧ Extended i format rm rd s s' := by
  have hspare : format.spare ≠ 0 := by
    cases format <;> first | decide | cases hformat
  have hfirst := runs_shiftMove hleft hrd hcode.1 hcond
  have hshift : Shift.lsl.apply format.spare (s.read rm) s.flags.carry =
      (s.registers rm <<< format.spare, (s.registers rm).getLsbD (32 - format.spare)) := by
    rw [Shift.apply, if_neg hspare, read_of_ne _ hrm]
  rw [hshift] at hfirst
  generalize hs₁ : (s.goto (s.pc + 4)).compute .mov i.suffixes.setFlags rd 0 _ _ = s₁ at hfirst
  have hpc : s₁.pc = s.pc + 4 := by
    rw [← hs₁, compute_pc_of_ne _ _ _ _ _ _ hrd, goto_pc]
  have hend : s₁.pc + 4 = s.pc + 8 := by
    rw [hpc, BitVec.add_assoc]
    rfl
  have hregisters : s₁.registers =
      Function.update s.registers rd (s.registers rm <<< format.spare) := by
    rw [← hs₁, compute_registers _ _ _ _ _ hrd rfl]
    rfl
  have hmemory : s₁.memory = s.memory := by
    simp [← hs₁]
  have hfloats : s₁.floats = s.floats := by
    simp [← hs₁]
  have hflags : s₁.flags = if i.suffixes.setFlags then
      s.flags.shifted (s.registers rm) format.spare else s.flags := by
    rw [← hs₁, compute_flags]
    rfl
  have hword : s₁.memory.word s₁.pc = right := by
    rw [hmemory, hpc]
    exact hcode.2.1
  have hback : i.shiftsBack format (s.registers rm) s.flags = i.condition.holds s₁.flags := by
    rw [hflags, Instruction.shiftsBack]
    cases i.suffixes.setFlags <;> simp [hcond]
  have hkept (hset : i.suffixes.setFlags = false) : s₁.flags = s.flags := by
    rw [hflags, hset]
    rfl
  rw [← hpc]
  by_cases hnext : i.condition.holds s₁.flags = true
  · have hsecond := runs_shiftMove hright hrd hword hnext
    have hread : s₁.read rd = s.registers rm <<< format.spare := by
      rw [read_of_ne _ hrd, hregisters, Function.update_self]
    rw [hread, Format.fill_apply hformat, hend] at hsecond
    refine ⟨_, hfirst.trans hsecond, ?_, ?_, ?_, ?_, fun hset => ?_⟩
    · rw [compute_pc_of_ne _ _ _ _ _ _ hrd, goto_pc]
    · rw [compute_registers _ _ _ _ _ hrd rfl, goto_registers, hregisters, Function.update_idem,
        hback, if_pos hnext]
      rfl
    · rw [compute_floats, goto_floats, hfloats]
    · rw [compute_memory, goto_memory, hmemory]
    · rw [compute_flags, hset, if_neg Bool.false_ne_true, goto_flags, hkept hset]
  · obtain ⟨rn, hreads⟩ := reads_shiftMove hright hrd
    rw [← hword] at hreads
    have hsecond := runs_of_fails hreads.1 (eq_false_of_ne_true hnext)
    rw [hend] at hsecond
    refine ⟨_, hfirst.trans hsecond, rfl, ?_, hfloats, hmemory, hkept⟩
    rw [hback, if_neg hnext]
    exact hregisters

theorem extend_eq_ok {code : Code} (h : extend i rm rd = .ok code) :
    ∃ format left right, i.op.loadFormat? = some format ∧ format.isNarrow = true ∧
      shiftMove i rm .lsl (.constant format.spare) rd = .ok left ∧
        shiftMove i rd format.fill (.constant format.spare) rd = .ok right ∧
          code = ⟨[left, right], none⟩ := by
  have hshifts : ∃ format, i.op.loadFormat? = some format ∧ format.isNarrow = true ∧
      extend i rm rd = (do
        let left ← shiftMove i rm .lsl (.constant format.spare) rd
        let right ← shiftMove i rd format.fill (.constant format.spare) rd
        return ⟨[left, right], none⟩) := by
    unfold extend at h ⊢
    cases hop : i.op with
    | movb => exact ⟨_, rfl, rfl, rfl⟩
    | movbu => exact ⟨_, rfl, rfl, rfl⟩
    | movh => exact ⟨_, rfl, rfl, rfl⟩
    | movhu => exact ⟨_, rfl, rfl, rfl⟩
    | _ =>
      rw [hop] at h
      cases h
  obtain ⟨format, hop, hformat, hextend⟩ := hshifts
  rw [hextend] at h
  obtain ⟨left, hleft, h⟩ := bind_eq_ok.mp h
  obtain ⟨right, hright, h⟩ := bind_eq_ok.mp h
  exact ⟨format, left, right, hop, hformat, hleft, hright, (pure_eq_ok.mp h).symm⟩

end Encode

/-! ## Conditions -/

/-- The conditions that a shift to the left cannot end, unless nothing is left to be done. -/
def Condition.lasting : List Condition := [al, ne, vs, vc]

/-- Flags and a word for which any other condition fails after the word was shifted to the left. -/
def Condition.ending : Condition → Flags × Word
  | eq | le => (⟨false, true, false, false⟩, 1)
  | cs | hi => (⟨false, false, true, false⟩, 1)
  | mi | lt => (⟨true, false, false, false⟩, 1)
  | cc | ls => (⟨false, false, false, false⟩, 0x10101)
  | _ => (⟨false, false, false, false⟩, 0x8080)

namespace Format

variable {format : Format} (h : format.isNarrow = true) {cond : Condition}
include h

theorem holds_of_lasting (hcond : cond ∈ Condition.lasting) {f : Flags} (hf : cond.holds f = true)
    (w : Word) :
    cond.holds (f.shifted w format.spare) = true ∨ w <<< format.spare = format.extend w := by
  cases cond with
  | al => exact .inl rfl
  | vs => exact .inl hf
  | vc => exact .inl hf
  | ne =>
    by_cases hzero : w <<< format.spare = 0
    · right
      rw [← fill_apply h w false, hzero]
      cases format <;> rfl
    · left
      simpa [Condition.holds, Flags.shifted] using hzero
  | _ => exact absurd hcond (by decide)

theorem ending_spec (hcond : cond ∉ Condition.lasting) : cond.holds cond.ending.1 = true ∧
      cond.holds (cond.ending.1.shifted cond.ending.2 format.spare) = false ∧
        cond.ending.2 <<< format.spare ≠ format.extend cond.ending.2 := by
  cases cond <;> first
    | exact absurd (by decide) hcond
    | cases format <;> first | decide | cases h

end Format

/-- **Extension.** The two shifts of an extension change nothing but the register, and the flags if
these are to be set. The register is extended, or left shifted to the left: that is if the flags of
the first shift end the condition. It is extended from every state in which the condition holds if
and only if the flags are not to be set, or the condition is one that lasts. -/
theorem extension_of_shifts {i : Instruction} {rm rd : Register} (hform : i.form = .extend rm rd)
    (hrm : rm ≠ .pc) (hrd : rd ≠ .pc) {pc : Nat} {labels : String → Option Nat} {code : Code}
    (h : encode i pc labels = .ok code) : ∃ format, i.op.loadFormat? = some format ∧
      (∀ s : Cpu, s.memory.Holds s.pc code.words → i.condition.holds s.flags = true →
        ∃ s', Runs s [.fetch s.pc, .fetch (s.pc + 4)] s' ∧
          Encode.Extended i format rm rd s s') ∧
      ((∀ s s' : Cpu, s.memory.Holds s.pc code.words → i.condition.holds s.flags = true →
        Runs s [.fetch s.pc, .fetch (s.pc + 4)] s' →
          s'.registers rd = format.extend (s.registers rm)) ↔
        i.suffixes.setFlags = false ∨ i.condition ∈ Condition.lasting) := by
  simp only [encode, Encode.form, hform] at h
  obtain ⟨format, left, right, hop, hformat, hleft, hright, rfl⟩ := Encode.extend_eq_ok h
  have hruns {s : Cpu} (hcode : s.memory.Holds s.pc [left, right])
      (hcond : i.condition.holds s.flags = true) :=
    Encode.runs_extend hformat hleft hright hrm hrd hcode hcond
  refine ⟨format, hop, fun s => hruns, fun hall => ?_, fun hlast s s' hcode hcond hrun => ?_⟩
  · by_contra hlost
    obtain ⟨hset, hcond⟩ := not_or.mp hlost
    obtain ⟨hbefore, hafter, hne⟩ := Format.ending_spec hformat hcond
    -- the word stands in the register, and the flags are those for which the condition ends
    let s : Cpu := ⟨0, Function.update (fun _ => 0) rm i.condition.ending.2, i.condition.ending.1,
      fun _ => 0, .ofWords [left, right]⟩
    have hcode : s.memory.Holds s.pc [left, right] := Memory.holds_ofWords (by simp)
    have hword : s.registers rm = i.condition.ending.2 :=
      Function.update_self rm _ fun _ => (0 : Word)
    have hback : i.shiftsBack format (s.registers rm) s.flags = false := by
      rw [Instruction.shiftsBack, hword, eq_true_of_ne_false hset]
      exact hafter
    obtain ⟨s', hrun, hextended⟩ := hruns hcode hbefore
    have hresult := hall s s' hcode hbefore hrun
    rw [hextended.registers, Function.update_self, hback, if_neg Bool.false_ne_true, hword]
      at hresult
    exact hne hresult
  · obtain ⟨s'', hrun', hextended⟩ := hruns hcode hcond
    obtain rfl := hrun.unique hrun'
    rw [hextended.registers, Function.update_self]
    split
    · rfl
    rename_i hback
    rw [Instruction.shiftsBack, Bool.or_eq_true, not_or] at hback
    rcases hlast with hset | hlast
    · exact absurd (by rw [hset]; rfl) hback.1
    · exact (Format.holds_of_lasting hformat hlast hcond _).resolve_left hback.2

/-- A byte is extended under a condition, and the flags are set. -/
def extendByte (op : Opcode) (cond : Condition) : Instruction :=
  ⟨op, cond, { setFlags := true }, .extend 1 2, none⟩

/-- The condition lasts if it is that the last result was not zero. -/
theorem extension_of_shifts_sample :
    ∃ s', Runs (.before [0x11b02c01, 0x11b02c42] ⟨false, false, true, false⟩)
      [.fetch 0, .fetch 4] s' ∧ s'.pc = 8 ∧ s'.registers 2 = 1 := by
  have hcode : encode (extendByte .movb .ne) 0 (fun _ => none) =
      .ok ⟨[0x11b02c01, 0x11b02c42], none⟩ := by
    decide +kernel
  have hholds : (Memory.ofWords [0x11b02c01, 0x11b02c42]).Holds 0 [0x11b02c01, 0x11b02c42] :=
    Memory.holds_ofWords (by decide)
  obtain ⟨format, hop, hruns, hiff⟩ :=
    extension_of_shifts (i := extendByte .movb .ne) rfl (by decide) (by decide) hcode
  cases hop
  obtain ⟨s', hrun, hextended⟩ :=
    hruns (.before [0x11b02c01, 0x11b02c42] ⟨false, false, true, false⟩) hholds rfl
  refine ⟨s', hrun, hextended.pc, ?_⟩
  rw [hiff.mpr (.inr (by decide)) (.before _ ⟨false, false, true, false⟩) s' hholds rfl hrun]
  decide +kernel

/-- The condition ends if it is that the last result was zero. The byte is left where the first
shift put it. -/
theorem extension_left_halfway :
    encode (extendByte .movbu .eq) 0 (fun _ => none) = .ok ⟨[0x01b02c01, 0x01b02c22], none⟩ ∧
      ∃ s', Runs (.before [0x01b02c01, 0x01b02c22] ⟨false, true, false, false⟩)
        [.fetch 0, .fetch 4] s' ∧ s'.pc = 8 ∧ s'.registers 2 = 0x1000000 := by
  have hleft : Encode.shiftMove (extendByte .movbu .eq) 1 .lsl (.constant 24) 2 =
      .ok 0x01b02c01 := by
    decide +kernel
  have hright : Encode.shiftMove (extendByte .movbu .eq) 2 .lsr (.constant 24) 2 =
      .ok 0x01b02c22 := by
    decide +kernel
  have hformat : Format.byte.isNarrow = true := rfl
  refine ⟨by decide +kernel, ?_⟩
  obtain ⟨s', hrun, hextended⟩ := Encode.runs_extend hformat hleft hright (by decide)
    (by decide) (s := .before [0x01b02c01, 0x01b02c22] ⟨false, true, false, false⟩)
    (Memory.holds_ofWords (by decide)) rfl
  refine ⟨s', hrun, hextended.pc, ?_⟩
  rw [hextended.registers]
  rfl

end Arm

end ArmLink
