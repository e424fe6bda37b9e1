import ArmLink.Proofs.Arm.Constants
import ArmLink.Proofs.Arm.Transfers

/-!
# The program counter as an operand

The program counter is read by the last word of an instruction. As long as there are no words in
front of it, it is where the instruction is, and two words ahead. A constant that has to be put into
the scratch register moves it on.
-/

namespace ArmLink.Arm

open Cpu List

variable {s : Cpu} {offset : Int} {t : Transfer} {c : Computation}

/-! ## How far the last word is -/

namespace Immediate

theorem expressible_of_encode? {value field : Word} (h : encode? value = some field) :
    Expressible value := by
  obtain ⟨rotation, byte, -, hvalue⟩ := encode?_eq_some h
  exact ⟨rotation, byte, hvalue⟩

theorem expressible_iff {value : Word} : (encode? value).isSome = true ↔ Expressible value := by
  cases hfield : encode? value with
  | none => simp [not_expressible_of_encode? hfield]
  | some field => simp [expressible_of_encode? hfield]

instance : DecidablePred Expressible := fun _ => decidable_of_iff _ expressible_iff

/-- The bytes of code that put a constant into a register. -/
def detour (value : Word) : Nat :=
  if Expressible value ∨ Expressible (~~~ value) then 4 else 12

end Immediate

instance (op : Operation) (value : Word) : Decidable (op.Fits value) :=
  inferInstanceAs (Decidable (_ ∨ _ ∨ _))

/-- The bytes of code in front of the word that computes. A move does not read its first operand,
so that it does not matter for moves. -/
def Computation.lead (c : Computation) : Nat :=
  if c.operation = .mov ∨ c.operation = .mvn ∨ c.operation.Fits (.ofInt 32 c.value) then 0
  else Immediate.detour (.ofInt 32 c.value)

/-- The bytes of code in front of the word that loads or stores at a constant offset. -/
def Format.lead (format : Format) (offset : Int) : Nat :=
  if offset.natAbs < format.reach then 0 else Immediate.detour (.ofInt 32 offset)

theorem Cpu.read_last_pc {lead : Nat} :
    (s.last (lead + 4)).read .pc = s.pc + 8 + .ofNat 32 lead := by
  have hread : (s.last (lead + 4)).read .pc = s.pc + .ofNat 32 (lead + 4 - 4) + 8 := rfl
  rw [hread, Nat.add_sub_cancel, BitVec.add_assoc, BitVec.add_comm (.ofNat 32 lead),
    BitVec.add_assoc]

namespace Encode

variable {op : Opcode} {operation : Operation} {cond : Condition} {suffixes : Suffixes}
  {value : Word} {rn : Option Register} {rd : Register} {code : Code}

theorem size_materialize (h : materialize cond rd value = .ok code) :
    code.size = Immediate.detour value := by
  obtain ⟨destination, -, h⟩ := bind_eq_ok.mp h
  unfold Immediate.detour
  split at h
  · rename_i hfield
    cases pure_eq_ok.mp h
    rw [if_pos (.inl (Immediate.expressible_of_encode? hfield))]
    rfl
  · rename_i hfield
    cases pure_eq_ok.mp h
    rw [if_pos (.inr (Immediate.expressible_of_encode? hfield))]
    rfl
  · rename_i hnone hother
    obtain ⟨w, -, ⟨⟩⟩ := bind_pure_eq_ok.mp h
    have hwide : ¬ (Immediate.Expressible value ∨ Immediate.Expressible (~~~ value)) := by
      rintro (hvalue | hvalue)
      · exact Immediate.not_expressible_of_encode? hnone hvalue
      · exact Immediate.not_expressible_of_encode? hother hvalue
    rw [if_neg hwide]
    rfl

theorem fits_of_partner? {other : Opcode} {v field : Word} (hop : op.operation? = some operation)
    (hpartner : partner? op value = some (other, v)) (hfield : Immediate.encode? v = some field) :
    operation.Fits value := by
  have hv : Immediate.Expressible v := Immediate.expressible_of_encode? hfield
  cases op <;> cases hpartner <;> cases hop
  all_goals first | exact .inr (.inl ⟨by decide, hv⟩) | exact .inr (.inr ⟨by decide, hv⟩)

theorem size_dataImmediate (hop : op.operation? = some operation)
    (h : dataImmediate op cond suffixes value rn rd = .ok code) (hmove : op.isMove = false) :
    code.size = (if operation.Fits value then 0 else Immediate.detour value) + 4 := by
  unfold dataImmediate at h
  split at h
  · rename_i field hfield
    obtain ⟨registers, -, ⟨⟩⟩ := bind_pure_eq_ok.mp h
    rw [if_pos (.inl (Immediate.expressible_of_encode? hfield))]
    rfl
  rename_i hnone
  split at h
  · rename_i other field hother
    obtain ⟨registers, -, ⟨⟩⟩ := bind_pure_eq_ok.mp h
    obtain ⟨⟨_, v⟩, hpartner, hother⟩ := Option.bind_eq_some_iff.mp hother
    obtain ⟨_, hfield, hother⟩ := Option.map_eq_some_iff.mp hother
    cases hother
    rw [if_pos (fits_of_partner? hop hpartner hfield)]
    rfl
  rename_i hpartner
  rw [hmove, if_neg Bool.false_ne_true] at h
  split at h
  · cases h
  · obtain ⟨constant, hconstant, h⟩ := bind_eq_ok.mp h
    obtain ⟨registers, -, h⟩ := bind_eq_ok.mp h
    obtain ⟨-, hsize, -⟩ := Code.last_append h
    rw [hsize, size_materialize hconstant, if_neg (Operation.not_fits hop hnone hpartner)]

theorem size_access {format : Format} {load : Bool} {flip : Word} {base rt : Register}
    {busy : List Register} (hformat : format.isGeneral load = true)
    (h : format.access.code flip offset base rt busy cond suffixes = .ok code) :
    code.size = if mayMaterialize suffixes then format.lead offset + 4 else 4 := by
  have hword {w : Word} : (Code.ofWord w).size = 4 := rfl
  rw [Access.code, span_access hformat] at h
  cases hkeep : mayMaterialize suffixes with
  | false =>
    rw [hkeep, Bool.not_false, Bool.or_true, if_pos rfl] at h
    obtain ⟨w, -, ⟨⟩⟩ := bind_pure_eq_ok.mp h
    exact hword
  | true =>
    rw [hkeep, Bool.not_true, Bool.or_false] at h
    rw [if_pos rfl, Format.lead]
    split at h
    · rename_i hnear
      obtain ⟨w, -, ⟨⟩⟩ := bind_pure_eq_ok.mp h
      rw [if_pos (of_decide_eq_true hnear), hword]
    rename_i hfar
    split at h
    · cases h
    · obtain ⟨constant, hconstant, h⟩ := bind_eq_ok.mp h
      obtain ⟨w, -, h⟩ := bind_eq_ok.mp h
      obtain ⟨-, hsize, -⟩ := Code.last_append h
      rw [hsize, size_materialize hconstant, if_neg fun hnear => hfar (decide_eq_true hnear)]

end Encode

/-! ## All forms -/

theorem Cpu.Performs.of_isMove {size : Nat} {operation : Operation} {setFlags : Bool}
    {rd : Register} {x y : Word} (h : s.Performs size operation setFlags rd x y)
    (hmove : operation = .mov ∨ operation = .mvn) (x' : Word) :
    s.Performs size operation setFlags rd x' y := by
  obtain ⟨events, temporary, carry, h⟩ := h
  rw [compute_of_isMove hmove _ _ _ x'] at h
  exact ⟨events, temporary, carry, h⟩

theorem encode_of_transfer? {i : Instruction} (ht : i.transfer? = some t)
    (hfloat : t.format.isFloat = false) (hoffset : t.displacement = .constant offset) (pc : Nat)
    (labels : String → Option Nat) : t.format.isGeneral t.load = true ∧
      ∃ busy, (t.base ∈ busy ∧ (t.load = false → t.register ∈ busy)) ∧
        encode i pc labels = t.format.access.code (Encode.flip t.load) offset t.base t.register busy
          i.condition i.suffixes := by
  unfold Instruction.transfer? at ht
  split at ht <;> try cases ht
  · rename_i hform
    obtain ⟨format, hop, rfl⟩ := Option.map_eq_some_iff.mp ht
    cases hoffset
    refine ⟨Instruction.isGeneral_of_loadFormat? hop, [_], ⟨mem_cons_self, nofun⟩, ?_⟩
    simp only [encode, Encode.form, hform, Encode.load, Instruction.loadAccess?_eq, hop]
    rfl
  · rename_i hform
    obtain ⟨format, hop, rfl⟩ := Option.map_eq_some_iff.mp ht
    cases hoffset
    refine ⟨Instruction.isGeneral_of_storeFormat? hop, [_, _],
      ⟨mem_cons_self, fun _ => mem_cons_of_mem _ mem_cons_self⟩, ?_⟩
    simp only [encode, Encode.form, hform, Encode.store, Instruction.storeAccess?_eq, hop]
    rfl
  · obtain ⟨format, -, rfl⟩ := Option.map_eq_some_iff.mp ht
    cases hoffset
  · obtain ⟨format, -, rfl⟩ := Option.map_eq_some_iff.mp ht
    cases hoffset
  · obtain ⟨format, hop, rfl⟩ := Option.map_eq_some_iff.mp ht
    cases hfloat.symm.trans (Instruction.isFloat_of_floatFormat? hop)
  · obtain ⟨format, hop, rfl⟩ := Option.map_eq_some_iff.mp ht
    cases hfloat.symm.trans (Instruction.isFloat_of_floatFormat? hop)

section Operand

variable {i : Instruction} {code : Code} {pc : Nat} {labels : String → Option Nat}
  (h : encode i pc labels = .ok code)
include h

theorem dataImmediate_of_computation? (hc : i.computation? = some c) :
    ∃ op rn, op.operation? = some c.operation ∧ rn.getD c.destination = c.first ∧
      Encode.dataImmediate op i.condition i.suffixes (.ofInt 32 c.value) rn c.destination =
        .ok code := by
  obtain ⟨op, rn, hop, hfirst, hencode | ⟨hencode, -⟩⟩ := encode_of_computation? hc pc labels
  · exact ⟨op, rn, hop, hfirst, hencode ▸ h⟩
  · cases hencode.symm.trans h

theorem size_of_computation? (hc : i.computation? = some c)
    (hmove : ¬ (c.operation = .mov ∨ c.operation = .mvn)) : code.size = c.lead + 4 := by
  obtain ⟨op, rn, hop, -, hcode⟩ := dataImmediate_of_computation? h hc
  have hop' : op.isMove = false := by
    rw [← Bool.not_eq_true, Encode.isMove_iff hop]
    exact hmove
  rw [Encode.size_dataImmediate hop hcode hop', Computation.lead]
  simp only [← or_assoc, hmove, false_or]

theorem performs_pc (hc : i.computation? = some c) (hfirst : c.first = .pc)
    (hreturns : ¬ Encode.Returns c.operation i.suffixes c.destination)
    (hcode : s.memory.Holds s.pc code.words) (hcond : i.condition.holds s.flags = true) :
    s.Performs code.size c.operation (i.suffixes.sets c.operation) c.destination
      (s.pc + 8 + .ofNat 32 c.lead) (.ofInt 32 c.value) := by
  obtain ⟨op, rn, hop, hrn, hencode⟩ := dataImmediate_of_computation? h hc
  have hperforms := Encode.performs_dataImmediate_last hop hencode hreturns hcode hcond
  by_cases hmove : c.operation = .mov ∨ c.operation = .mvn
  · exact hperforms.of_isMove hmove _
  · rw [hrn, hfirst] at hperforms
    rw [← read_last_pc, ← size_of_computation? h hc hmove]
    exact hperforms

theorem doneAt_pc (ht : i.transfer? = some t) (hfloat : t.format.isFloat = false)
    (hbase : t.base = .pc) (hoffset : t.displacement = .constant offset)
    (hkeep : Encode.mayMaterialize i.suffixes = true) (hcode : s.memory.Holds s.pc code.words)
    (hcond : i.condition.holds s.flags = true) : ∃ events s', Runs s events s' ∧
      t.DoneAt (displaced (t.format.subtracts i.suffixes)
          (s.pc + 8 + .ofNat 32 (t.format.lead offset)) (.ofInt 32 offset))
        ((s.last code.size).stored t.format t.register) code.size s s' events := by
  obtain ⟨hformat, busy, hbusy, hencode⟩ := encode_of_transfer? ht hfloat hoffset pc labels
  rw [hencode] at h
  have hsize := Encode.size_access hformat h
  rw [hkeep, if_pos rfl] at hsize
  have hdone := Encode.doneAt_access hformat hkeep h hbusy hcode hcond
  rw [hbase, hsize, read_last_pc, ← hsize] at hdone
  obtain ⟨load, format, register, base, displacement⟩ := t
  cases hoffset
  cases hbase
  exact hdone

end Operand

/-- **The program counter.** An operand that is the program counter is read by the last word of the
code, and so it is the address of the instruction, eight bytes ahead, and further ahead by the words
in front of the last one. There are none if the constant or the offset fits in the word, and one or
three otherwise. -/
theorem programCounter_read_last {i : Instruction} {pc : Nat} {labels : String → Option Nat}
    {code : Code} (h : encode i pc labels = .ok code) (s : Cpu)
    (hcode : s.memory.Holds s.pc code.words) (hcond : i.condition.holds s.flags = true) :
    (∀ c, i.computation? = some c → c.first = .pc →
      (¬ (c.operation = .mov ∨ c.operation = .mvn) → code.size = c.lead + 4) ∧
        (¬ Encode.Returns c.operation i.suffixes c.destination →
          s.Performs code.size c.operation (i.suffixes.sets c.operation) c.destination
            (s.pc + 8 + .ofNat 32 c.lead) (.ofInt 32 c.value))) ∧
    ∀ t offset, i.transfer? = some t → t.format.isFloat = false → t.base = .pc →
      t.displacement = .constant offset →
        code.size = (if Encode.mayMaterialize i.suffixes then t.format.lead offset + 4 else 4) ∧
          (Encode.mayMaterialize i.suffixes = true → ∃ events s', Runs s events s' ∧
            t.DoneAt (displaced (t.format.subtracts i.suffixes)
                (s.pc + 8 + .ofNat 32 (t.format.lead offset)) (.ofInt 32 offset))
              ((s.last code.size).stored t.format t.register) code.size s s' events) := by
  refine ⟨fun c hc hfirst => ⟨size_of_computation? h hc, fun hreturns => ?_⟩,
    fun t offset ht hfloat hbase hoffset => ⟨?_, fun hkeep => ?_⟩⟩
  · exact performs_pc h hc hfirst hreturns hcode hcond
  · obtain ⟨hformat, busy, -, hencode⟩ := encode_of_transfer? ht hfloat hoffset pc labels
    exact Encode.size_access hformat (hencode ▸ h)
  · exact doneAt_pc h ht hfloat hbase hoffset hkeep hcode hcond

/-- A word is loaded from a page behind a register. -/
def loadPage (base : Register) : Instruction := ⟨.movw, .al, .none, .load 0x1000 base 2, none⟩

/-- The words of `addLiteral` with the program counter. -/
def addAheadWords : List Word := [0x159fb000, 0xea000000, 0x12345678, 0x109f200b]

/-- The words of `loadPage` with the program counter. -/
def loadAheadWords : List Word := [0xe3a0ba01, 0xe79f200b]

theorem encode_addAhead :
    encode (addLiteral .pc) 0 (fun _ => none) = .ok ⟨addAheadWords, none⟩ := by
  decide +kernel

theorem encode_loadAhead :
    encode (loadPage .pc) 0 (fun _ => none) = .ok ⟨loadAheadWords, none⟩ := by
  decide +kernel

theorem holds_addAhead : (Memory.ofWords addAheadWords).Holds 0 addAheadWords :=
  Memory.holds_ofWords (by decide)

theorem holds_loadAhead : (Memory.ofWords loadAheadWords).Holds 0 loadAheadWords :=
  Memory.holds_ofWords (by decide)

theorem programCounter_read_last_sample :
    Performs (.before addAheadWords ⟨false, false, true, false⟩) 16 .add true 2 20 0x12345678 ∧
      ∃ events s', Runs (.before loadAheadWords ⟨false, false, true, false⟩) events s' ∧
        Transfer.DoneAt ⟨true, .word, 2, 15, .constant 0x1000⟩ 0x100c 2 8
          (.before loadAheadWords ⟨false, false, true, false⟩) s' events := by
  constructor
  · refine ((programCounter_read_last encode_addAhead
      (.before addAheadWords ⟨false, false, true, false⟩) holds_addAhead rfl).1 _ rfl rfl).2 ?_
    exact Encode.not_returns (by decide)
  · exact ((programCounter_read_last encode_loadAhead
      (.before loadAheadWords ⟨false, false, true, false⟩) holds_loadAhead rfl).2 _ _ rfl rfl rfl
      rfl).2 rfl

/-- The program counter has moved on by the words in front: by twelve bytes where an addition takes
its constant from a literal, and by four where a load takes its offset from another word. -/
theorem programCounter_moves_on :
    (encode (addLiteral .pc) 0 (fun _ => none) = .ok ⟨addAheadWords, none⟩ ∧
      ∃ events s', Runs (.before addAheadWords ⟨false, false, true, false⟩) events s' ∧
        s'.pc = 16 ∧ s'.registers 2 = 0 + 8 + 0x12345678 + 12) ∧
    encode (loadPage .pc) 0 (fun _ => none) = .ok ⟨loadAheadWords, none⟩ ∧
      ∃ events s', Runs (.before loadAheadWords ⟨false, false, true, false⟩) events s' ∧
        s'.pc = 8 ∧ events.filter Event.isAccess = [.load (0 + 8 + 0x1000 + 4) 4] := by
  refine ⟨⟨encode_addAhead, ?_⟩, encode_loadAhead, ?_⟩
  · obtain ⟨events, temporary, carry, hruns⟩ := performs_pc encode_addAhead rfl rfl
      (Encode.not_returns (by decide)) (s := .before addAheadWords ⟨false, false, true, false⟩)
      holds_addAhead rfl
    refine ⟨events, _, hruns, ?_, ?_⟩
    · rw [compute_pc_of_ne _ _ _ _ _ _ (by decide), write_pc_of_ne _ _ (by decide)]
      rfl
    · rw [compute_registers_self _ _ _ _ _ (by decide) rfl]
      rfl
  · obtain ⟨events, s', hruns, hdone⟩ := doneAt_pc encode_loadAhead rfl rfl rfl rfl rfl
      (s := .before loadAheadWords ⟨false, false, true, false⟩) holds_loadAhead rfl
    obtain ⟨⟨fetched, hfetched | ⟨hliteral, -⟩, haccess⟩, temporary, rfl⟩ := hdone
    · rw [hfetched] at haccess
      refine ⟨events, _, hruns, ?_, haccess⟩
      exact write_pc_of_ne _ _ (by decide)
    · exact absurd hliteral (by decide)

end ArmLink.Arm
