import ArmLink.Proofs.Arm.Execution

/-!
# Registers that do not exist

Most of what an encoder does fails for one reason only: a register has a number that no field can
hold. Such failures name the register.
-/

namespace ArmLink.Arm.Encode

open List

/-- The error names one of the registers, and there is no such register. -/
def Missing (rs : List Register) (e : EncodeError) : Prop := ∃ r ∈ rs, e = .noRegister r ∧ 16 ≤ r

/-- Nothing but one of the registers missing makes a computation fail. -/
abbrev Needs {α : Type} (rs : List Register) (x : Except EncodeError α) : Prop :=
  Gives (Missing rs) (fun _ => True) x

variable {α β : Type} {rs : List Register} {r : Register} {x : Except EncodeError α}

theorem needs_pure (rs : List Register) (a : α) : Needs rs (pure a : Except EncodeError α) :=
  gives_pure trivial

theorem Needs.bind {f : α → Except EncodeError β} (hx : Needs rs x)
    (hf : ∀ a, Needs rs (f a)) : Needs rs (x >>= f) :=
  Gives.bind hx fun a _ => hf a

theorem needs_register (h : r ∈ rs) : Needs rs (register r) := by
  refine ⟨fun he => ?_, fun _ => trivial⟩
  obtain ⟨he, hr⟩ := register_eq_error he
  exact ⟨r, h, he, hr⟩

theorem Needs.mono {rs' : List Register} (h : Needs rs x) (hsub : rs ⊆ rs') : Needs rs' x :=
  h.imp fun _ ⟨r, hr, hmissing⟩ => ⟨r, hsub hr, hmissing⟩

theorem Needs.of_lt (h : Needs (r :: rs) x) (hr : r < 16) : Needs rs x := by
  refine h.imp fun e hmissing => ?_
  obtain ⟨r', hmem, hmissing⟩ := hmissing
  rcases mem_cons.mp hmem with rfl | hmem
  · exact absurd hmissing.2 (Nat.not_le_of_lt hr)
  · exact ⟨r', hmem, hmissing⟩

theorem needs_append (rs : List Register) (c : Code) (w : Word) :
    Needs rs (c.append (.ofWord w)) := by
  rw [Code.append_ofWord]
  exact needs_pure _ _

/-! ## Data -/

variable {cond : Condition} {suffixes : Suffixes} {op : Opcode} {rn : Option Register}
  {rd base rt : Register} {value : Word} {offset : Int}

theorem needs_operandRegisters : Needs [rn.getD rd, rd] (operandRegisters op rn rd) := by
  have hfirst : Needs [rn.getD rd, rd] (register (rn.getD rd)) :=
    needs_register mem_cons_self
  have hdestination : Needs [rn.getD rd, rd] (register rd) :=
    needs_register (mem_cons_of_mem _ mem_cons_self)
  unfold operandRegisters
  split
  · exact hdestination.bind fun _ => needs_pure _ _
  split
  · exact hfirst.bind fun _ => needs_pure _ _
  · exact hfirst.bind fun _ => hdestination.bind fun _ => needs_pure _ _

theorem needs_loadWord (h : offset.natAbs < 0x1000) :
    Needs [base, rt] (loadWord offset base rt cond suffixes) := by
  unfold loadWord
  rw [if_pos h]
  refine (needs_register mem_cons_self).bind fun _ => ?_
  exact (needs_register (mem_cons_of_mem _ mem_cons_self)).bind fun _ => needs_pure _ _

theorem needs_loadLiteral : Needs [rd] (loadLiteral cond rd value) := by
  refine Needs.bind ?_ fun _ => needs_pure _ _
  exact (needs_loadWord (by decide)).of_lt (by decide)

theorem needs_materialize : Needs [rd] (materialize cond rd value) := by
  refine (needs_register mem_cons_self).bind fun _ => ?_
  split
  · exact needs_pure _ _
  · exact needs_pure _ _
  · exact needs_loadLiteral

theorem needs_materialize_scratch (rs : List Register) :
    Needs rs (materialize cond .scratch value) :=
  (needs_materialize.of_lt (by decide)).mono (nil_subset rs)

/-! ## Memory -/

theorem needs_loadHalfRegister {index : Register} :
    Needs [index, base, rt] (loadHalfRegister index base rt cond suffixes) := by
  refine (needs_register mem_cons_self).bind fun _ => ?_
  refine (needs_register (mem_cons_of_mem _ mem_cons_self)).bind fun _ => ?_
  refine (needs_register ?_).bind fun _ => needs_pure _ _
  exact mem_cons_of_mem _ (mem_cons_of_mem _ mem_cons_self)

theorem needs_loadHalf (h : offset.natAbs < 0x100) :
    Needs [base, rt] (loadHalf offset base rt cond suffixes) := by
  refine (needs_loadHalfRegister.of_lt (by decide)).bind fun _ => ?_
  rw [if_pos h]
  exact needs_pure _ _

theorem needs_direct {a : Access} (h : offset.natAbs < a.span) :
    Needs [base, rt] (a.direct offset base rt cond suffixes) := by
  cases a with
  | word bits =>
    exact (needs_loadWord h).bind fun _ => needs_pure _ _
  | half bits =>
    exact (needs_loadHalf h).bind fun _ => needs_pure _ _

theorem needs_viaScratch {a : Access} : Needs [base, rt] (a.viaScratch base rt cond suffixes) := by
  unfold Access.viaScratch
  split
  · exact (needs_loadWord (by decide)).bind fun _ => needs_pure _ _
  · exact (needs_loadHalfRegister.of_lt (by decide)).bind fun _ => needs_pure _ _

theorem needs_floatWord {double : Bool} :
    Needs [base, rt] (floatWord double offset base rt cond suffixes) := by
  refine (needs_register mem_cons_self).bind fun _ => ?_
  exact (needs_register (mem_cons_of_mem _ mem_cons_self)).bind fun _ => needs_pure _ _

end ArmLink.Arm.Encode
