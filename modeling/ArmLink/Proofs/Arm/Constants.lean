import ArmLink.Proofs.Arm.Registers

/-!
# Operations with any constant

An operation takes a constant from a field if there is one, by way of its partner if the complement
or the negative has one, and else from a register that was filled before. Whichever way is taken,
the operation is the one that was asked for.
-/

namespace ArmLink.Arm

open Cpu

/-! ## Partners -/

/-- To subtract the negative of a number sets the same flags as to add the number, unless the number
is its own negative. -/
theorem Flags.ofSum_not_neg {y : Word} (h : y ≠ 0) (hleast : y ≠ 0x80000000) (x : Word) :
    ofSum x (~~~ (-y)) true = ofSum x y false := by
  have hnat : (~~~ (-y)).toNat + 1 = y.toNat := by
    bv_omega
  have hint : (~~~ (-y)).toInt + 1 = y.toInt := by
    rw [BitVec.toInt_eq_toNat_cond, BitVec.toInt_eq_toNat_cond]
    bv_omega
  have hsum : x + ~~~ (-y) + BitVec.ofNat 32 true.toNat = x + y + BitVec.ofNat 32 false.toNat := by
    bv_omega
  have hcarry : x.toNat + (~~~ (-y)).toNat + true.toNat = x.toNat + y.toNat + false.toNat := by
    simp only [Bool.toNat_true, Bool.toNat_false]
    omega
  have hoverflow : x.toInt + (~~~ (-y)).toInt + true.toNat = x.toInt + y.toInt + false.toNat := by
    omega
  simp only [ofSum, hsum, hcarry, hoverflow]

theorem Operation.partner {op other : Opcode} {operation : Operation} {value v : Word}
    (hpartner : Encode.partner? op value = some (other, v)) (hop : op.operation? = some operation)
    (hzero : value ≠ 0) (hleast : value ≠ 0x80000000) :
    ∃ operation', other.operation? = some operation' ∧
      operation'.isComparison = operation.isComparison ∧
        (∀ x carry, operation'.value x v carry = operation.value x value carry) ∧
          ∀ x carry f, operation'.flags x v carry f = operation.flags x value carry f := by
  have hnot : ~~~ ~~~ value = value := BitVec.not_not
  have hplus (x : Word) : x - -value = x + value := by
    bv_omega
  have hminus (x : Word) : x + -value = x - value := by
    bv_omega
  have hadd (x : Word) : Flags.ofSum x (~~~ (-value)) true = Flags.ofSum x value false :=
    Flags.ofSum_not_neg hzero hleast x
  have hsub (x : Word) : Flags.ofSum x (-value) false = Flags.ofSum x (~~~ value) true := by
    rw [← Flags.ofSum_not_neg (y := -value) (by bv_omega) (by bv_omega), BitVec.neg_neg]
  cases op with
  | movw =>
    cases hpartner
    cases hop
    refine ⟨.mvn, rfl, rfl, fun x carry => hnot, fun x carry f => ?_⟩
    exact congrArg (Operation.flags .mov x · carry f) hnot
  | mvn =>
    cases hpartner
    cases hop
    exact ⟨.mov, rfl, rfl, fun x carry => rfl, fun x carry f => rfl⟩
  | and =>
    cases hpartner
    cases hop
    refine ⟨.bic, rfl, rfl, fun x carry => congrArg (x &&& ·) hnot, fun x carry f => ?_⟩
    exact congrArg (Operation.flags .and x · carry f) hnot
  | bic =>
    cases hpartner
    cases hop
    exact ⟨.and, rfl, rfl, fun x carry => rfl, fun x carry f => rfl⟩
  | add =>
    cases hpartner
    cases hop
    exact ⟨.sub, rfl, rfl, fun x carry => hplus x, fun x carry f => hadd x⟩
  | sub =>
    cases hpartner
    cases hop
    exact ⟨.add, rfl, rfl, fun x carry => hminus x, fun x carry f => hsub x⟩
  | cmp =>
    cases hpartner
    cases hop
    exact ⟨.cmn, rfl, rfl, fun x carry => hminus x, fun x carry f => hsub x⟩
  | cmn =>
    cases hpartner
    cases hop
    exact ⟨.cmp, rfl, rfl, fun x carry => hplus x, fun x carry f => hadd x⟩
  | _ => cases hpartner

/-- A single word performs the operation with a constant: the constant is a rotated byte, or its
complement or negative is and the operation has a partner. -/
def Operation.Fits (op : Operation) (value : Word) : Prop :=
  Immediate.Expressible value ∨
    (op ∈ [.and, .bic, .mov, .mvn] ∧ Immediate.Expressible (~~~ value)) ∨
      (op ∈ [.add, .sub, .cmp, .cmn] ∧ Immediate.Expressible (-value))

theorem Operation.not_fits {op : Opcode} {operation : Operation} {value : Word}
    (hop : op.operation? = some operation) (hnone : Immediate.encode? value = none)
    (hpartner : ((Encode.partner? op value).bind fun (other, v) =>
      (Immediate.encode? v).map (other, ·)) = none) : ¬ operation.Fits value := by
  have hother {other : Opcode} {v : Word} (h : Encode.partner? op value = some (other, v)) :
      ¬ Immediate.Expressible v := by
    rw [h] at hpartner
    exact Immediate.not_expressible_of_encode? (Option.map_eq_none_iff.mp hpartner)
  rintro (h | ⟨hmem, h⟩ | ⟨hmem, h⟩)
  · exact Immediate.not_expressible_of_encode? hnone h
  · cases op <;> cases hop <;> first | exact hother rfl h | exact absurd hmem (by decide)
  · cases op <;> cases hop <;> first | exact hother rfl h | exact absurd hmem (by decide)

namespace Cpu

/-- The next `size` bytes of code perform an operation; only the scratch register may change
besides. -/
def Performs (s : Cpu) (size : Nat) (operation : Operation) (setFlags : Bool) (rd : Register)
    (x y : Word) : Prop :=
  ∃ events temporary carry, Runs s events
    (((s.goto (s.pc + .ofNat 32 size)).write .scratch temporary).compute operation setFlags rd x y
      carry)

variable {s : Cpu} {size : Nat} {operation operation' : Operation} {setFlags : Bool}
  {rd : Register} {x y y' : Word}

/-- Where the scratch register is not used, it is as if it were written with what it holds. -/
theorem performs_of_runs {events : List Event} (carry : Bool)
    (h : Runs s events ((s.goto (s.pc + .ofNat 32 size)).compute operation setFlags rd x y carry)) :
    s.Performs size operation setFlags rd x y := by
  refine ⟨events, s.registers .scratch, carry, ?_⟩
  have hkept := write_self (s.goto (s.pc + .ofNat 32 size)) (r := .scratch) (by decide)
  rw [goto_registers] at hkept
  rw [hkept]
  exact h

theorem Performs.congr (h : s.Performs size operation' setFlags rd x y')
    (hcomparison : operation'.isComparison = operation.isComparison)
    (hvalue : ∀ carry, operation'.value x y' carry = operation.value x y carry)
    (hflags : ∀ carry f, operation'.flags x y' carry f = operation.flags x y carry f) :
    s.Performs size operation setFlags rd x y := by
  obtain ⟨events, temporary, carry, h⟩ := h
  refine ⟨events, temporary, carry, ?_⟩
  simp only [compute, hcomparison, hvalue, hflags] at h
  exact h

end Cpu

/-! ## All ways to a constant -/

namespace Encode

section Run

variable {op : Opcode} {operation : Operation} {cond : Condition} {suffixes : Suffixes}
  {value : Word} {rn : Option Register} {rd : Register} {code : Code} {s : Cpu}

variable (hop : op.operation? = some operation)
include hop

theorem performs_move (hmove : op.isMove = true) (h : (do
      let literal := if op = .mvn then ~~~ value else value
      if suffixes.setFlags then
        let code ← materialize cond .scratch literal
        code.append (.ofWord
          (dataProcessing .movw cond suffixes ||| scratchField ||| (← operandRegisters op rn rd)))
      else
        loadLiteral cond rd literal : Except EncodeError Code) = .ok code)
    (hrd : ¬ Returns operation suffixes rd) (hcode : s.memory.Holds s.pc code.words)
    (hcond : cond.holds s.flags = true) :
    s.Performs code.size operation (suffixes.sets operation) rd
      ((s.last code.size).read (rn.getD rd)) value := by
  -- to move the complement of a constant is to move another constant
  suffices hliteral : ∀ x, s.Performs code.size .mov (suffixes.sets .mov) rd x
      (if op = .mvn then ~~~ value else value) by
    rcases (isMove_iff hop).mp hmove with rfl | rfl
    · have hne : op ≠ .mvn := by
        rintro rfl
        cases hop
      rw [if_neg hne] at hliteral
      exact hliteral _
    · have heq : op = .mvn := by
        cases op <;> first | rfl | cases hop
      rw [if_pos heq] at hliteral
      exact (hliteral _).congr rfl (fun _ => rfl) fun _ _ => rfl
  intro x
  dsimp only at h
  split at h
  · obtain ⟨constant, hconstant, h⟩ := bind_eq_ok.mp h
    obtain ⟨registers, hregisters, h⟩ := bind_eq_ok.mp h
    have hsame : operandRegisters op rn rd = operandRegisters .movw rn rd := by
      rw [operandRegisters, if_pos hmove]
      rfl
    rw [hsame] at hregisters
    have hmov : ¬ Returns .mov suffixes rd := by
      rcases (isMove_iff hop).mp hmove with rfl | rfl <;> exact hrd
    obtain ⟨events, carry, hruns, -⟩ :=
      runs_viaScratch rfl hconstant hregisters h hmov (.inl rfl) hcode hcond
    exact ⟨events, _, carry, hruns⟩
  · rename_i hset
    have hsets : suffixes.sets .mov = false := by
      rw [Suffixes.sets, eq_false_of_ne_true hset]
      rfl
    rw [hsets]
    by_cases hpc : rd = .pc
    · -- a literal that goes to the program counter is jumped to, without going past the literal
      obtain ⟨w, -, hruns⟩ := runs_literal h hcode hcond
      subst hpc
      exact performs_of_runs false hruns
    · exact performs_of_runs false (runs_loadLiteral h hpc hcode hcond).2

/-- **Any constant.** However an operation with a constant is encoded, it is performed on what its
last word reads. -/
theorem performs_dataImmediate_last (h : dataImmediate op cond suffixes value rn rd = .ok code)
    (hrd : ¬ Returns operation suffixes rd) (hcode : s.memory.Holds s.pc code.words)
    (hcond : cond.holds s.flags = true) :
    s.Performs code.size operation (suffixes.sets operation) rd
      ((s.last code.size).read (rn.getD rd)) value := by
  unfold dataImmediate at h
  split at h
  · rename_i field hfield
    obtain ⟨registers, hregisters, ⟨⟩⟩ := bind_pure_eq_ok.mp h
    obtain ⟨carry, hruns⟩ := runs_immediate hop hfield hregisters hrd hcode.1 hcond
    rw [last_ofWord]
    exact performs_of_runs carry hruns
  rename_i hnone
  split at h
  · rename_i other field hother
    obtain ⟨registers, hregisters, ⟨⟩⟩ := bind_pure_eq_ok.mp h
    obtain ⟨⟨_, v⟩, hpartner, hother⟩ := Option.bind_eq_some_iff.mp hother
    obtain ⟨_, hfield, hother⟩ := Option.map_eq_some_iff.mp hother
    cases hother
    obtain ⟨hzero, hleast⟩ := Immediate.special_of_encode? hnone
    obtain ⟨operation', hop', hcomparison, hvalue, hflags⟩ :=
      Operation.partner hpartner hop hzero hleast
    have hrd' : ¬ Returns operation' suffixes rd := by
      rwa [Returns, hcomparison]
    obtain ⟨carry, hruns⟩ := runs_immediate hop' hfield hregisters hrd' hcode.1 hcond
    have hsets : suffixes.sets operation = suffixes.sets operation' := by
      rw [Suffixes.sets, Suffixes.sets, hcomparison]
    rw [hsets, last_ofWord]
    exact (performs_of_runs carry hruns).congr hcomparison (hvalue _) (hflags _)
  split at h
  · rename_i hmove
    exact performs_move hop hmove h hrd hcode hcond
  · split at h
    · cases h
    · rename_i hfree
      obtain ⟨constant, hconstant, h⟩ := bind_eq_ok.mp h
      obtain ⟨registers, hregisters, h⟩ := bind_eq_ok.mp h
      obtain ⟨events, carry, hruns, -⟩ :=
        runs_viaScratch hop hconstant hregisters h hrd (.inr hfree) hcode hcond
      exact ⟨events, _, carry, hruns⟩

theorem performs_dataImmediate (h : dataImmediate op cond suffixes value rn rd = .ok code)
    (hfirst : rn.getD rd ≠ .pc) (hrd : rd ≠ .pc) (hcode : s.memory.Holds s.pc code.words)
    (hcond : cond.holds s.flags = true) :
    s.Performs code.size operation (suffixes.sets operation) rd (s.registers (rn.getD rd))
      value := by
  rw [← read_last_of_ne s hfirst code.size]
  exact performs_dataImmediate_last hop h (not_returns hrd) hcode hcond

omit hop

end Run

/-! ## Refusals -/

section Refused

variable {op : Opcode} {operation : Operation} {cond : Condition} {suffixes : Suffixes}
  {value : Word} {rn : Option Register} {rd : Register} {e : EncodeError}

/-- **No way.** The only reason beside registers that do not exist: the constant has to go through
the scratch register, and the scratch register is an operand. -/
theorem dataImmediate_eq_error (hop : op.operation? = some operation)
    (h : dataImmediate op cond suffixes value rn rd = .error e) : Missing [rn.getD rd, rd] e ∨
      e = .scratchOperand value ∧ rn.getD rd = .scratch ∧ ¬ operation.Fits value := by
  have hscratch (v fixed : Word) : Needs [rn.getD rd, rd] (do
      let code ← materialize cond .scratch v
      code.append (.ofWord (fixed ||| scratchField ||| (← operandRegisters op rn rd)))) :=
    (needs_materialize_scratch _).bind fun _ =>
      needs_operandRegisters.bind fun _ => needs_append _ _ _
  unfold dataImmediate at h
  split at h
  · exact .inl ((needs_operandRegisters.bind fun _ => needs_pure _ _).of_error h)
  rename_i hnone
  split at h
  · exact .inl ((needs_operandRegisters.bind fun _ => needs_pure _ _).of_error h)
  rename_i hpartner
  split at h
  · dsimp only at h
    split at h
    · exact .inl ((hscratch _ _).of_error h)
    · exact .inl ((needs_loadLiteral.mono (List.subset_cons_self _ _)).of_error h)
  split at h
  · rename_i hfirst
    cases h
    exact .inr ⟨rfl, hfirst, Operation.not_fits hop hnone hpartner⟩
  · exact .inl ((hscratch _ _).of_error h)

end Refused

end Encode

/-! ## Computations -/

/-- What an instruction computes: an operation on a register and a constant. -/
structure Computation where
  operation : Operation
  value : Int
  first : Register
  destination : Register
  deriving DecidableEq, Repr

/-- The computation of an instruction with a constant. The address at an offset from a register is a
sum, and a constant without a symbol is moved. -/
def Instruction.computation? (i : Instruction) : Option Computation :=
  match i.form with
  | .immediate value rn rd => i.op.operation?.map (⟨·, value, rn.getD rd, rd⟩)
  | .addressOf offset base rd => if i.op = .movw then some ⟨.add, offset, base, rd⟩ else none
  | .loadConstant value none rd => if i.op = .movw then some ⟨.mov, value, rd, rd⟩ else none
  | _ => none

namespace Computation

/-- What a computation has changed when it is over. -/
structure Performed (c : Computation) (setFlags : Bool) (s s' : Cpu) : Prop where
  result : c.operation.isComparison = false → s'.registers c.destination =
    c.operation.value (s.registers c.first) (.ofInt 32 c.value) s.flags.carry
  /-- the other registers are as they were, but for the scratch register -/
  others : ∀ r, r ≠ .scratch → c.operation.isComparison = true ∨ r ≠ c.destination →
    s'.registers r = s.registers r
  floats : s'.floats = s.floats
  memory : s'.memory = s.memory
  /-- the flags are those of the operation with the constant; only the carry of an operation that is
  not arithmetic depends on how the constant was made -/
  flags : (setFlags || c.operation.isComparison) = true → ∃ carry, s'.flags =
    c.operation.flags (s.registers c.first) (.ofInt 32 c.value) carry s.flags
  resultFlags : (setFlags || c.operation.isComparison) = true →
    let result := c.operation.value (s.registers c.first) (.ofInt 32 c.value) s.flags.carry
    s'.flags.negative = result.msb ∧ s'.flags.zero = decide (result = 0)
  noFlags : (setFlags || c.operation.isComparison) = false → s'.flags = s.flags

/-- Why a computation has no code. -/
def Refused (c : Computation) (e : EncodeError) : Prop :=
  Encode.Missing [c.first, c.destination] e ∨
    (e = .wideConstant c.value ∧ ¬ (-0x80000000 ≤ c.value ∧ c.value < 0x100000000)) ∨
      (e = .scratchOperand (.ofInt 32 c.value) ∧ c.first = .scratch ∧
        ¬ c.operation.Fits (.ofInt 32 c.value))

theorem performed_of_compute (c : Computation) (suffixes : Suffixes) (s : Cpu) (a temporary : Word)
    (carry : Bool) (hdestination : c.destination ≠ .pc) : c.Performed suffixes.setFlags s
      (((s.goto a).write .scratch temporary).compute c.operation (suffixes.sets c.operation)
        c.destination (s.registers c.first) (.ofInt 32 c.value) carry) where
  result hop := by
    rw [compute_registers_self _ _ _ _ _ hdestination hop, write_flags, goto_flags]
  others r hr hne := by
    rw [compute_registers_of_ne _ _ _ _ _ hdestination hne,
      write_registers_of_ne _ _ (by decide) hr, goto_registers]
  floats := by
    simp
  memory := by
    simp
  flags hset := by
    refine ⟨carry, ?_⟩
    rw [compute_flags, Suffixes.sets, if_pos hset, write_flags, goto_flags]
  resultFlags hset := by
    rw [compute_flags, Suffixes.sets, if_pos hset, write_flags, goto_flags]
    exact Operation.flags_of_value _ _ _ _ _
  noFlags hset := by
    rw [compute_flags, Suffixes.sets, hset, if_neg Bool.false_ne_true, write_flags, goto_flags]

end Computation

theorem encode_of_computation? {i : Instruction} {c : Computation} (hc : i.computation? = some c)
    (pc : Nat) (labels : String → Option Nat) :
    ∃ op rn, op.operation? = some c.operation ∧ rn.getD c.destination = c.first ∧
      (encode i pc labels = Encode.dataImmediate op i.condition i.suffixes (.ofInt 32 c.value) rn
          c.destination ∨
        encode i pc labels = .error (.wideConstant c.value) ∧
          ¬ (-0x80000000 ≤ c.value ∧ c.value < 0x100000000)) := by
  have hconstant (value : Int) (f : Word → Except EncodeError Code) :
      (Encode.constant value >>= f) = f (.ofInt 32 value) ∨
        (Encode.constant value >>= f) = .error (.wideConstant value) ∧
          ¬ (-0x80000000 ≤ value ∧ value < 0x100000000) := by
    unfold Encode.constant
    split
    · exact .inl rfl
    · rename_i hwide
      exact .inr ⟨rfl, hwide⟩
  unfold Instruction.computation? at hc
  split at hc
  · rename_i value rn rd hform
    obtain ⟨operation, hop, rfl⟩ := Option.map_eq_some_iff.mp hc
    refine ⟨i.op, rn, hop, rfl, ?_⟩
    obtain ⟨bits, hbits⟩ : ∃ bits, Encode.dataOpcode? i.op = some bits := by
      cases hcode : i.op <;> rw [hcode] at hop <;> first | exact ⟨_, rfl⟩ | cases hop
    simp only [encode, Encode.form, hform, hbits]
    exact hconstant value _
  · rename_i offset base rd hform
    split at hc
    · rename_i hop
      cases hc
      refine ⟨.add, some base, rfl, rfl, .inl ?_⟩
      simp only [encode, Encode.form, hform, hop, if_true]
    · cases hc
  · rename_i value rd hform
    split at hc
    · rename_i hop
      cases hc
      refine ⟨.movw, none, rfl, rfl, ?_⟩
      simp only [encode, Encode.form, hform, hop, ne_eq, not_true_eq_false, if_false]
      exact hconstant value _
    · cases hc
  · cases hc

/-- **Constants.** An operation with a constant does what it says, however its constant is encoded:
it ends behind its code with the result and the flags of the operation, and changes nothing else but
the scratch register. It has no code only if a register does not exist, if the constant does not
fit in a word, or if the constant has to go through the scratch register, which is an operand. -/
theorem constants_keep_meaning {i : Instruction} {c : Computation}
    (hc : i.computation? = some c) (pc : Nat) (labels : String → Option Nat) :
    (∀ code, encode i pc labels = .ok code → c.first ≠ .pc → c.destination ≠ .pc →
      ∀ s : Cpu, s.memory.Holds s.pc code.words → i.condition.holds s.flags = true →
        ∃ events s', Runs s events s' ∧ s'.pc = s.pc + .ofNat 32 code.size ∧
          c.Performed i.suffixes.setFlags s s') ∧
      ∀ e, encode i pc labels = .error e → c.Refused e := by
  obtain ⟨op, rn, hop, hfirst, hencode⟩ := encode_of_computation? hc pc labels
  rcases hencode with hencode | ⟨hencode, hwide⟩
  · rw [hencode]
    constructor
    · intro code hcode hne hdestination s hholds hcond
      rw [← hfirst] at hne
      obtain ⟨events, temporary, carry, hruns⟩ :=
        Encode.performs_dataImmediate hop hcode hne hdestination hholds hcond
      rw [hfirst] at hruns
      refine ⟨events, _, hruns, ?_,
        c.performed_of_compute i.suffixes s _ temporary carry hdestination⟩
      rw [compute_pc_of_ne _ _ _ _ _ _ hdestination, write_pc_of_ne _ _ (by decide), goto_pc]
    · intro e he
      rcases Encode.dataImmediate_eq_error hop he with h | h
      · rw [hfirst] at h
        exact .inl h
      · rw [hfirst] at h
        exact .inr (.inr h)
  · rw [hencode]
    constructor
    · intro code hcode
      cases hcode
    · intro e he
      cases he
      exact .inr (.inl ⟨rfl, hwide⟩)

/-- An addition that sets the flags, if they are not equal, with a constant that has no field. -/
def addLiteral (first : Register) : Instruction :=
  ⟨.add, .ne, { setFlags := true }, .immediate 0x12345678 (some first) 2, none⟩

/-- The words of `addLiteral` with the first register: the literal, and then the addition. -/
def addLiteralWords : List Word := [0x159fb000, 0xea000000, 0x12345678, 0x1091200b]

theorem constants_keep_meaning_sample :
    let s := Cpu.before addLiteralWords ⟨false, false, true, false⟩
    (∃ events s', Runs s events s' ∧ s'.pc = 16 ∧
      Computation.Performed ⟨.add, 0x12345678, 1, 2⟩ true s s') ∧
        Computation.Refused ⟨.add, 0x12345678, 11, 2⟩ (.scratchOperand 0x12345678) := by
  have hcode : encode (addLiteral 1) 0 (fun _ => none) = .ok ⟨addLiteralWords, none⟩ := by
    decide +kernel
  have hholds : (Memory.ofWords addLiteralWords).Holds 0 addLiteralWords := by
    refine ⟨?_, ?_, ?_, ?_, trivial⟩ <;> decide +kernel
  constructor
  · exact (constants_keep_meaning (i := addLiteral 1) rfl 0 (fun _ => none)).1 _ hcode (by decide)
      (by decide) (.before addLiteralWords ⟨false, false, true, false⟩) hholds rfl
  · exact (constants_keep_meaning (i := addLiteral 11) rfl 0 (fun _ => none)).2 _
      (by decide +kernel)

end ArmLink.Arm
