import ArmLink.Proofs.Arm.Decoding

/-!
# Executing what was encoded

Code stands in memory, and a processor runs through it word by word.
-/

namespace ArmLink.Arm

open List
open Word (pack)

variable {action : Action} {rt r' rn rd : Register} {value a w : Word} {ws : List Word}
  {cond : Condition} {op : Opcode} {format : Format} {up carry other write : Bool} {offset : Offset}
  {operation : Operation} {x y : BitVec 4} {suffixes : Suffixes} {s : Cpu} {c code : Code}
  {operand : Operand} {low : BitVec 12} {kind : BitVec 3}

/-! ## The state -/

namespace Cpu

variable (s : Cpu) (r : Register) (w a : Word)

@[simp] theorem goto_pc : (s.goto a).pc = a := rfl
@[simp] theorem goto_registers : (s.goto a).registers = s.registers := rfl
@[simp] theorem goto_flags : (s.goto a).flags = s.flags := rfl
@[simp] theorem goto_floats : (s.goto a).floats = s.floats := rfl
@[simp] theorem goto_memory : (s.goto a).memory = s.memory := rfl
@[simp] theorem goto_goto (b : Word) : (s.goto a).goto b = s.goto b := rfl

@[simp] theorem write_flags : (s.write r w).flags = s.flags := by
  unfold write
  split <;> rfl

@[simp] theorem write_floats : (s.write r w).floats = s.floats := by
  unfold write
  split <;> rfl

@[simp] theorem write_memory : (s.write r w).memory = s.memory := by
  unfold write
  split <;> rfl

variable {r}

section

variable (h : r ≠ .pc)
include h

theorem read_of_ne : s.read r = s.registers r := if_neg h

theorem write_of_ne :
    s.write r w = { s with registers := Function.update s.registers r w } := if_neg h

theorem write_pc_of_ne : (s.write r w).pc = s.pc := by
  rw [write_of_ne _ _ h]

theorem write_goto : (s.write r w).goto a = (s.goto a).write r w := by
  rw [write_of_ne _ _ h, write_of_ne _ _ h]
  rfl

theorem write_registers : (s.write r w).registers = Function.update s.registers r w := by
  rw [write_of_ne _ _ h]

theorem write_registers_self : (s.write r w).registers r = w := by
  rw [write_registers _ _ h, Function.update_self]

theorem write_registers_of_ne (hne : r' ≠ r) : (s.write r w).registers r' = s.registers r' := by
  rw [write_registers _ _ h, Function.update_of_ne hne]

theorem write_write (w' : Word) : (s.write r w).write r w' = s.write r w' := by
  rw [write_of_ne _ _ h, write_of_ne _ _ h, write_of_ne _ _ h]
  simp only [Function.update_idem]

theorem read_write_of_ne (hne : r' ≠ r) : (s.write r w).read r' = s.read r' := by
  rw [read, read, write_pc_of_ne _ _ h, write_registers_of_ne _ _ h hne]

end

/-- The same state at the last word of code of some size. -/
def last (size : Nat) : Cpu := s.goto (s.pc + .ofNat 32 (size - 4))

theorem read_last_of_ne (h : r ≠ .pc) (size : Nat) : (s.last size).read r = s.registers r :=
  if_neg h

theorem last_ofWord : s.last (Code.ofWord w).size = s := by
  have hpc : s.pc + .ofNat 32 ((Code.ofWord w).size - 4) = s.pc := BitVec.add_zero _
  rw [last, hpc]
  rfl

theorem write_self (h : r ≠ .pc) : s.write r (s.registers r) = s := by
  rw [write_of_ne _ _ h, Function.update_eq_self]

variable (op : Operation) (setFlags : Bool) (x y : Word) (carry : Bool)

@[simp] theorem compute_flags : (s.compute op setFlags r x y carry).flags =
    if setFlags then op.flags x y carry s.flags else s.flags := by
  unfold compute
  dsimp only
  split
  · rfl
  · rw [write_flags]

@[simp] theorem compute_floats : (s.compute op setFlags r x y carry).floats = s.floats := by
  unfold compute
  dsimp only
  split
  · rfl
  · rw [write_floats]

@[simp] theorem compute_memory : (s.compute op setFlags r x y carry).memory = s.memory := by
  unfold compute
  dsimp only
  split
  · rfl
  · rw [write_memory]

theorem compute_pc_of_ne (h : r ≠ .pc) : (s.compute op setFlags r x y carry).pc = s.pc := by
  unfold compute
  dsimp only
  split
  · rfl
  · rw [write_pc_of_ne _ _ h]

variable {op}

theorem compute_registers (h : r ≠ .pc) (hop : op.isComparison = false) :
    (s.compute op setFlags r x y carry).registers =
      Function.update s.registers r (op.value x y s.flags.carry) := by
  simp only [compute, hop, Bool.false_eq_true, if_false, write_registers _ _ h]

theorem compute_registers_self (h : r ≠ .pc) (hop : op.isComparison = false) :
    (s.compute op setFlags r x y carry).registers r = op.value x y s.flags.carry := by
  rw [compute_registers _ _ _ _ _ h hop, Function.update_self]

theorem compute_registers_of_ne (h : r ≠ .pc) (hne : op.isComparison = true ∨ r' ≠ r) :
    (s.compute op setFlags r x y carry).registers r' = s.registers r' := by
  unfold compute
  dsimp only
  split
  · rfl
  · rename_i hop
    rw [write_registers_of_ne _ _ h (hne.resolve_left hop)]

end Cpu

/-! ## Runs -/

namespace Memory

/-- A memory that holds words from address zero on. -/
def ofWords (ws : List Word) : Memory where
  byte a := (ws.getD (a.toNat / 4) 0).extractLsb' (8 * (a.toNat % 4)) 8

theorem next_word {n : Nat} : a + 4 + .ofNat 32 (4 * n) = a + .ofNat 32 (4 * (n + 1)) := by
  rw [BitVec.add_assoc, Nat.mul_succ, Nat.add_comm, BitVec.ofNat_add]
  rfl

variable (m : Memory)

theorem holds_append {vs : List Word} :
    m.Holds a (ws ++ vs) ↔ m.Holds a ws ∧ m.Holds (a + .ofNat 32 (4 * ws.length)) vs := by
  induction ws generalizing a with
  | nil => simp [Holds]
  | cons w ws ih =>
    rw [cons_append, Holds, Holds, ih, next_word, length_cons, and_assoc]

theorem word_ofWords {k : Nat} (hw : ws[k]? = some w) (hlength : 4 * ws.length ≤ 2 ^ 32) :
    (ofWords ws).word (.ofNat 32 (4 * k)) = w := by
  obtain ⟨hk, -⟩ := List.getElem?_eq_some_iff.mp hw
  have hbyte (j : Nat) (hj : j < 4) :
      (ofWords ws).byte (.ofNat 32 (4 * k) + .ofNat 32 j) = w.extractLsb' (8 * j) 8 := by
    have haddress : (4 * k + j) % 2 ^ 32 = 4 * k + j := Nat.mod_eq_of_lt (by omega)
    have hindex : (4 * k + j) / 4 = k := by
      omega
    have hplace : (4 * k + j) % 4 = j := by
      omega
    unfold ofWords
    dsimp only
    rw [← BitVec.ofNat_add, BitVec.toNat_ofNat, haddress, hindex, hplace,
      getD_eq_getElem?_getD, hw, Option.getD_some]
  have hzero := hbyte 0 (by decide)
  rw [BitVec.add_zero] at hzero
  have hone : (ofWords ws).byte (.ofNat 32 (4 * k) + 1) = _ := hbyte 1 (by decide)
  have htwo : (ofWords ws).byte (.ofNat 32 (4 * k) + 2) = _ := hbyte 2 (by decide)
  have hthree : (ofWords ws).byte (.ofNat 32 (4 * k) + 2 + 1) = w.extractLsb' 24 8 := by
    rw [BitVec.add_assoc]
    exact hbyte 3 (by decide)
  rw [word, half, half, hthree, htwo, hone, hzero]
  refine BitVec.eq_of_getLsbD_eq fun i hi => ?_
  grind

theorem holds_ofWords (hlength : 4 * ws.length ≤ 2 ^ 32) : (ofWords ws).Holds 0 ws := by
  suffices h : ∀ rest k, ws.drop k = rest → (ofWords ws).Holds (.ofNat 32 (4 * k)) rest by
    exact h ws 0 rfl
  intro rest
  induction rest with
  | nil => exact fun _ _ => trivial
  | cons w rest ih =>
    intro k hdrop
    have hw : ws[k]? = some w := by
      rw [← head?_drop, hdrop]
      rfl
    have hrest : ws.drop (k + 1) = rest := by
      rw [← drop_drop, hdrop]
      rfl
    refine ⟨word_ofWords hw hlength, ?_⟩
    have hnext := ih (k + 1) hrest
    rw [Nat.mul_add, BitVec.ofNat_add] at hnext
    exact hnext

end Memory

/-- A processor in front of words that stand at address zero. Every register holds its number. -/
def Cpu.before (ws : List Word) (flags : Flags) : Cpu :=
  ⟨0, fun r => .ofNat 32 r, flags, fun r => .ofNat 64 r, .ofWords ws⟩

/-- The accesses among what is fetched, loaded and stored. -/
def Event.isAccess : Event → Bool
  | fetch _ => false
  | _ => true

/-- No access is made other than to a literal of the code itself. -/
def FetchesOnly (s : Cpu) (size : Nat) (events : List Event) : Prop :=
  events.filter Event.isAccess = [] ∨
    12 ≤ size ∧ events.filter Event.isAccess = [.load (s.pc + 8) 4]

namespace FetchesOnly

variable {size : Nat} {events rest : List Event}

theorem mono {size' : Nat} (h : FetchesOnly s size events) (hsize : size ≤ size') :
    FetchesOnly s size' events :=
  h.imp_right fun hliteral => ⟨Nat.le_trans hliteral.1 hsize, hliteral.2⟩

theorem append (h : FetchesOnly s size events) (hrest : rest.filter Event.isAccess = []) :
    FetchesOnly s size (events ++ rest) := by
  unfold FetchesOnly
  rw [filter_append, hrest, append_nil]
  exact h

end FetchesOnly

/-- What a processor finds in a word: the condition, and the action. -/
def Reads (w : Word) (cond : Condition) (action : Action) : Prop :=
  condition? w = some cond ∧ decode? w = some action

namespace Cpu

variable {s' s'' : Cpu} {events rest : List Event}

theorem Runs.single (h : s.step = some (s', events)) : Runs s events s' := by
  rw [← append_nil events]
  exact .step h (.refl s')

theorem Runs.trans (h : Runs s events s') (h' : Runs s' rest s'') :
    Runs s (events ++ rest) s'' := by
  induction h with
  | refl => exact h'
  | step hstep _ ih =>
    rw [append_assoc]
    exact .step hstep (ih h')

theorem step_ne_nil (h : s.step = some (s', events)) : events ≠ [] := by
  obtain ⟨cond, -, h⟩ := Option.bind_eq_some_iff.mp h
  split at h
  · obtain ⟨action, -, h⟩ := Option.bind_eq_some_iff.mp h
    cases h
    exact cons_ne_nil _ _
  · cases h
    exact cons_ne_nil _ _

/-- What is fetched, loaded and stored tells where a run ends. -/
theorem Runs.unique (h : Runs s events s') (h' : Runs s events s'') : s' = s'' := by
  induction h generalizing s'' with
  | refl s =>
    generalize hnil : ([] : List Event) = events' at h'
    cases h' with
    | refl => rfl
    | step hstep _ => exact absurd (append_eq_nil_iff.mp hnil.symm).1 (step_ne_nil hstep)
  | @step _ _ _ events rest hstep _ ih =>
    generalize hall : events ++ rest = events' at h'
    cases h' with
    | refl => exact absurd (append_eq_nil_iff.mp hall).1 (step_ne_nil hstep)
    | step hstep' hrest' =>
      cases hstep.symm.trans hstep'
      exact ih (append_cancel_left hall ▸ hrest')

theorem step_of_reads (hreads : Reads (s.memory.word s.pc) cond action)
    (hcond : cond.holds s.flags = true) :
    s.step = some ((s.execute action).1, .fetch s.pc :: (s.execute action).2) := by
  obtain ⟨hcode, haction⟩ := hreads
  simp [step, hcode, haction, hcond]

theorem runs_of_reads (hreads : Reads (s.memory.word s.pc) cond action)
    (hcond : cond.holds s.flags = true) :
    Runs s (.fetch s.pc :: (s.execute action).2) (s.execute action).1 :=
  .single (step_of_reads hreads hcond)

theorem runs_of_fails (hword : condition? (s.memory.word s.pc) = some cond)
    (hcond : cond.holds s.flags = false) : Runs s [.fetch s.pc] (s.goto (s.pc + 4)) := by
  apply Runs.single
  simp [step, hword, hcond]

theorem runs_compute {op : Operation} {setFlags : Bool} {y : Word}
    (hreads : Reads (s.memory.word s.pc) cond (.compute op setFlags rn rd operand))
    (hcond : cond.holds s.flags = true) (hoperand : s.operand operand = (y, carry)) :
    Runs s [.fetch s.pc] ((s.goto (s.pc + 4)).compute op setFlags rd (s.read rn) y carry) := by
  have hruns := runs_of_reads hreads hcond
  simp only [execute, hoperand] at hruns
  exact hruns

theorem runs_load (hreads : Reads (s.memory.word s.pc) cond (.transfer true format up rn rt offset))
    (hcond : cond.holds s.flags = true) :
    Runs s [.fetch s.pc, .load (s.address up rn offset) format.size]
      ((s.goto (s.pc + 4)).load format rt (s.address up rn offset)) :=
  runs_of_reads hreads hcond

theorem runs_store
    (hreads : Reads (s.memory.word s.pc) cond (.transfer false format up rn rt offset))
    (hcond : cond.holds s.flags = true) :
    Runs s [.fetch s.pc, .store (s.address up rn offset) format.size]
      { s.goto (s.pc + 4) with
        memory := s.memory.store (s.address up rn offset) format.size (s.stored format rt) } :=
  runs_of_reads hreads hcond

theorem compute_of_isMove {op : Operation} (h : op = .mov ∨ op = .mvn) (setFlags : Bool)
    (rd : Register) (x x' y : Word) (carry : Bool) :
    s.compute op setFlags rd x y carry = s.compute op setFlags rd x' y carry := by
  rcases h with rfl | rfl <;> rfl

theorem compute_of_isComparison {op : Operation} (h : op.isComparison = true) (setFlags : Bool)
    (rd rd' : Register) (x y : Word) (carry : Bool) :
    s.compute op setFlags rd x y carry = s.compute op setFlags rd' x y carry := by
  simp only [compute, h, if_true]

end Cpu

/-! ## Operations -/

def Opcode.operation? : Opcode → Option Operation
  | and => some .and
  | eor => some .eor
  | sub => some .sub
  | rsb => some .rsb
  | add => some .add
  | adc => some .adc
  | sbc => some .sbc
  | rsc => some .rsc
  | tst => some .tst
  | teq => some .teq
  | cmp => some .cmp
  | cmn => some .cmn
  | orr => some .orr
  | movw => some .mov
  | bic => some .bic
  | mvn => some .mvn
  | _ => none

/-- Whether an operation sets the flags. -/
def Suffixes.sets (suffixes : Suffixes) (op : Operation) : Bool :=
  suffixes.setFlags || op.isComparison

structure Suffixes.Plain (suffixes : Suffixes) : Prop where
  postIndex : suffixes.postIndex = false
  writeback : suffixes.writeback = false
  subtract : suffixes.subtract = false

namespace Encode

open Cpu

theorem dataProcessing_eq (hop : op.operation? = some operation) (cond : Condition)
    (suffixes : Suffixes) : dataProcessing op cond suffixes =
      pack cond.nibble (operation.control false (suffixes.sets operation)) 0#4 0#4 0#12 := by
  obtain ⟨operationBits, hbits, hcontrol⟩ : ∃ bits, dataOpcode? op = some bits ∧
      bits ||| (if suffixes.setFlags then 1 <<< 20 else 0) =
        pack 0#4 (operation.control false (suffixes.sets operation)) 0#4 0#4 0#12 := by
    unfold Suffixes.sets
    cases op <;> cases hop <;> cases suffixes.setFlags <;> exact ⟨_, rfl, by decide +kernel⟩
  rw [dataProcessing, dataProcessing?, hbits, Option.map_some, Option.getD_some, withCondition,
    BitVec.or_assoc, hcontrol, Condition.field_eq_pack, Word.pack_or]
  simp only [BitVec.or_zero, BitVec.zero_or]

theorem operandRegisters_eq_ok {rn : Option Register} (h : operandRegisters op rn rd = .ok w) :
    ∃ x y : BitVec 4, w = pack 0#4 0#8 x y 0#12 ∧
      (op.isMove = true ∨ x.toNat = rn.getD rd) ∧ (op.isComparison = true ∨ y.toNat = rd) := by
  unfold operandRegisters at h
  split at h
  · rename_i hmove
    obtain ⟨d, hd, h⟩ := bind_eq_ok.mp h
    obtain ⟨y, rfl, rfl⟩ := register_eq_ok hd
    cases pure_eq_ok.mp h
    exact ⟨0#4, y, Word.shiftLeft_eq_pack_rd y, .inl hmove, .inr rfl⟩
  · split at h
    · rename_i hcomparison
      obtain ⟨n, hn, h⟩ := bind_eq_ok.mp h
      obtain ⟨x, hx, rfl⟩ := register_eq_ok hn
      cases pure_eq_ok.mp h
      exact ⟨x, 0#4, Word.shiftLeft_eq_pack_rn x, .inr hx.symm, .inl hcomparison⟩
    · obtain ⟨n, hn, h⟩ := bind_eq_ok.mp h
      obtain ⟨x, hx, rfl⟩ := register_eq_ok hn
      obtain ⟨d, hd, h⟩ := bind_eq_ok.mp h
      obtain ⟨y, rfl, rfl⟩ := register_eq_ok hd
      cases pure_eq_ok.mp h
      refine ⟨x, y, ?_, .inr hx.symm, .inr rfl⟩
      rw [Word.shiftLeft_eq_pack_rn, Word.shiftLeft_eq_pack_rd, Word.pack_or]
      simp only [BitVec.or_zero, BitVec.zero_or]

theorem isMove_iff (hop : op.operation? = some operation) :
    op.isMove = true ↔ operation = .mov ∨ operation = .mvn := by
  cases op <;> cases hop <;> decide

theorem isComparison_eq (hop : op.operation? = some operation) :
    op.isComparison = operation.isComparison := by
  cases op <;> cases hop <;> rfl

section Run

variable {rn : Option Register} {registers : Word}

/-- A register field that an operation does not use has no effect. -/
theorem runs_operation (hop : op.operation? = some operation)
    (hreads : Reads (s.memory.word s.pc) cond
      (.compute operation (suffixes.sets operation) x.toNat y.toNat operand))
    (hx : op.isMove = true ∨ x.toNat = rn.getD rd) (hy : op.isComparison = true ∨ y.toNat = rd)
    (hcond : cond.holds s.flags = true) (hoperand : s.operand operand = (value, carry)) :
    Runs s [.fetch s.pc] ((s.goto (s.pc + 4)).compute operation (suffixes.sets operation) rd
      (s.read (rn.getD rd)) value carry) := by
  have hfirst : (s.goto (s.pc + 4)).compute operation (suffixes.sets operation) rd
      (s.read x.toNat) value carry =
      (s.goto (s.pc + 4)).compute operation (suffixes.sets operation) rd
        (s.read (rn.getD rd)) value carry := by
    rcases hx with hmove | hx
    · exact compute_of_isMove ((isMove_iff hop).mp hmove) _ _ _ _ _ _
    · rw [hx]
  have hruns := runs_compute hreads hcond hoperand
  rw [← hfirst]
  rcases hy with hcomparison | hy
  · rw [compute_of_isComparison (isComparison_eq hop ▸ hcomparison) _ rd y.toNat]
    exact hruns
  · rw [← hy]
    exact hruns

theorem reads_of_pack {control : BitVec 8}
    (h : decode? (pack cond.nibble control x y low) = some action) :
    Reads (pack cond.nibble control x y low) cond action :=
  ⟨condition?_pack cond control x y low, h⟩

/-- To set the flags and write the program counter is to return from an exception. -/
def Returns (operation : Operation) (suffixes : Suffixes) (rd : Register) : Prop :=
  operation.isComparison = false ∧ suffixes.setFlags = true ∧ rd = .pc

theorem not_returns (h : rd ≠ .pc) : ¬ Returns operation suffixes rd :=
  fun hreturns => h hreturns.2.2

variable (hop : op.operation? = some operation)
include hop

theorem ne_pc_of_destination (hy : op.isComparison = true ∨ y.toNat = rd)
    (hrd : ¬ Returns operation suffixes rd) (hcomparison : operation.isComparison = false)
    (hsets : suffixes.sets operation = true) : y.toNat ≠ Register.pc := by
  rw [Suffixes.sets, hcomparison, Bool.or_false] at hsets
  rcases hy with h | rfl
  · rw [isComparison_eq hop, hcomparison] at h
    cases h
  · exact fun hpc => hrd ⟨hcomparison, hsets, hpc⟩

/-- **A constant.** An operation with a constant that has a field. -/
theorem runs_immediate {field : Word} (hfield : Immediate.encode? value = some field)
    (hregisters : operandRegisters op rn rd = .ok registers) (hrd : ¬ Returns operation suffixes rd)
    (hword : s.memory.word s.pc = dataProcessing op cond suffixes ||| field ||| registers)
    (hcond : cond.holds s.flags = true) :
    ∃ carry, Runs s [.fetch s.pc] ((s.goto (s.pc + 4)).compute operation (suffixes.sets operation)
      rd (s.read (rn.getD rd)) value carry) := by
  obtain ⟨x, y, rfl, hx, hy⟩ := operandRegisters_eq_ok hregisters
  obtain ⟨rotation, byte, rfl, hvalue⟩ := Immediate.encode?_eq_some hfield
  have hpack : dataProcessing op cond suffixes ||| pack 0#4 0x20#8 0#4 0#4 (rotation ++ byte) |||
      pack 0#4 0#8 x y 0#12 =
        pack cond.nibble (operation.control true (suffixes.sets operation)) x y
          (rotation ++ byte) := by
    have hcontrol : operation.control false (suffixes.sets operation) ||| 0x20#8 =
        operation.control true (suffixes.sets operation) := by
      cases operation <;> cases suffixes.sets _ <;> rfl
    rw [dataProcessing_eq hop, Word.pack_or, Word.pack_or, hcontrol]
    simp only [BitVec.or_zero, BitVec.zero_or]
  have hreads : Reads (s.memory.word s.pc) cond (.compute operation (suffixes.sets operation)
      x.toNat y.toNat (.immediate (byte.setWidth 32) rotation.toNat)) := by
    rw [hword, hpack]
    apply reads_of_pack
    apply decode?_immediate
    · intro hcomparison
      simp [Suffixes.sets, hcomparison]
    · exact ne_pc_of_destination hop hy hrd
  have hoperand : s.operand (.immediate (byte.setWidth 32) rotation.toNat) =
      (value, if rotation.toNat = 0 then s.flags.carry else value.msb) := by
    rw [Cpu.operand, hvalue]
  exact ⟨_, runs_operation hop hreads hx hy hcond hoperand⟩

/-- **The scratch register.** An operation with the scratch register. -/
theorem runs_scratch (hregisters : operandRegisters op rn rd = .ok registers)
    (hrd : ¬ Returns operation suffixes rd)
    (hword : s.memory.word s.pc = dataProcessing op cond suffixes ||| scratchField ||| registers)
    (hcond : cond.holds s.flags = true) :
    Runs s [.fetch s.pc] ((s.goto (s.pc + 4)).compute operation (suffixes.sets operation) rd
      (s.read (rn.getD rd)) (s.registers .scratch) s.flags.carry) := by
  obtain ⟨x, y, rfl, hx, hy⟩ := operandRegisters_eq_ok hregisters
  have hpack : dataProcessing op cond suffixes ||| scratchField ||| pack 0#4 0#8 x y 0#12 =
      pack cond.nibble (operation.control false (suffixes.sets operation)) x y
        (shiftLow 0 .lsl 11) := by
    have hlow : scratchField = pack 0#4 0#8 0#4 0#4 (shiftLow 0 .lsl 11) := rfl
    rw [dataProcessing_eq hop, hlow, Word.pack_or, Word.pack_or]
    simp only [BitVec.or_zero, BitVec.zero_or]
  have hreads : Reads (s.memory.word s.pc) cond (.compute operation (suffixes.sets operation)
      x.toNat y.toNat (.shifted .scratch .lsl 0)) := by
    rw [hword, hpack]
    apply reads_of_pack
    apply decode?_shifted
    · intro hcomparison
      simp [Suffixes.sets, hcomparison]
    · exact ne_pc_of_destination hop hy hrd
  exact runs_operation hop hreads hx hy hcond rfl

omit hop

end Run

/-! ## Literals -/

/-- The bit that tells which way the offset goes. -/
def directionBit : Word := 1 <<< 23

theorem pack_directionBit {cond : BitVec 4} {before load : Bool} :
    pack cond (transferControl kind before up other write load) x y low ^^^ directionBit =
      pack cond (transferControl kind before (!up) other write load) x y low := by
  have hflip : ∀ (kind : BitVec 3) (before up other write load : Bool),
      transferControl kind before up other write load ^^^ 0x08#8 =
        transferControl kind before (!up) other write load := by
    decide +kernel
  have hbit : directionBit = pack 0#4 0x08#8 0#4 0#4 0#12 := rfl
  rw [hbit, Word.pack_xor, hflip]
  simp only [BitVec.xor_zero]

theorem pack_direction {offset : Int} {cond : BitVec 4} {before load : Bool} : (if offset < 0 then
        pack cond (transferControl kind before up other write load) x y low ^^^ (1 <<< 23)
      else pack cond (transferControl kind before up other write load) x y low) =
        pack cond (transferControl kind before (decide (0 ≤ offset) == up) other write load) x y
          low := by
  by_cases hlt : offset < 0
  · rw [if_pos hlt, decide_eq_false (by omega), Bool.false_beq]
    exact pack_directionBit ..
  · rw [if_neg hlt, decide_eq_true (by omega), Bool.true_beq]

theorem loadWord_eq_ok {offset : Int} {base : Register}
    (h : loadWord offset base rt cond suffixes = .ok w) :
    ∃ (b t : BitVec 4) (low : BitVec 12), base = b.toNat ∧ rt = t.toNat ∧
      low.toNat = offset.natAbs ∧
        w = pack cond.nibble (transferControl 0b010 (!suffixes.postIndex)
          (decide (0 ≤ offset) == !suffixes.subtract) false suffixes.writeback true) b t low := by
  have hfixed : cond.field ||| (if suffixes.postIndex then 0 else 1 <<< 24)
      ||| (if suffixes.subtract then 0 else 1 <<< 23)
      ||| (if suffixes.writeback then 1 <<< 21 else 0) ||| (1 <<< 26) ||| (1 <<< 20) =
        pack cond.nibble (transferControl 0b010 (!suffixes.postIndex) (!suffixes.subtract) false
          suffixes.writeback true) 0#4 0#4 0#12 := by
    cases suffixes.postIndex <;> cases suffixes.subtract <;> cases suffixes.writeback <;>
      cases cond <;> rfl
  unfold loadWord at h
  dsimp only at h
  split at h
  · rename_i hlt
    obtain ⟨_, hb, h⟩ := bind_eq_ok.mp h
    obtain ⟨b, rfl, rfl⟩ := register_eq_ok hb
    obtain ⟨_, ht, h⟩ := bind_eq_ok.mp h
    obtain ⟨t, rfl, rfl⟩ := register_eq_ok ht
    cases pure_eq_ok.mp h
    refine ⟨b, t, BitVec.ofNat 12 offset.natAbs, rfl, rfl, Nat.mod_eq_of_lt hlt, ?_⟩
    rw [hfixed, pack_direction, Word.ofNat_eq_setWidth (n := 12) hlt (by decide), Word.eq_pack_low,
      Word.shiftLeft_eq_pack_rn, Word.shiftLeft_eq_pack_rd]
    simp only [Word.pack_or, BitVec.or_zero, BitVec.zero_or]
  · cases h

/-- The word behind a branch past a literal is not looked at. -/
theorem runs_skipLiteral (h : s.memory.word s.pc = skipLiteral) :
    Runs s [.fetch s.pc] (s.goto (s.pc + 8)) := by
  have hreads : Reads (s.memory.word s.pc) .al (.branch false 0) := by
    rw [h]
    exact ⟨rfl, rfl⟩
  have hruns := runs_of_reads hreads rfl
  rw [← BitVec.add_zero (s.pc + 8)]
  exact hruns

theorem runs_literal (h : loadLiteral cond rd value = .ok code)
    (hcode : s.memory.Holds s.pc code.words) (hcond : cond.holds s.flags = true) :
    ∃ w, code.words = [w, skipLiteral, value] ∧
      Runs s [.fetch s.pc, .load (s.pc + 8) 4] ((s.goto (s.pc + 4)).write rd value) := by
  obtain ⟨w, hw, h⟩ := bind_eq_ok.mp h
  obtain ⟨b, t, low, hb, rfl, hlow, rfl⟩ := loadWord_eq_ok hw
  cases pure_eq_ok.mp h
  obtain ⟨hload, -, hliteral, -⟩ := hcode
  refine ⟨_, rfl, ?_⟩
  have hreads : Reads (s.memory.word s.pc) cond
      (.transfer true .word true b.toNat t.toNat (.constant (low.setWidth 32))) := by
    rw [hload]
    exact reads_of_pack (decode?_word ..)
  have hzero : low.setWidth 32 = 0 := by
    apply BitVec.eq_of_toNat_eq
    rw [BitVec.toNat_setWidth_of_le (by decide), hlow]
    rfl
  have haddress : s.address true b.toNat (.constant (low.setWidth 32)) = s.pc + 8 := by
    rw [← hb, hzero]
    exact BitVec.add_zero _
  have hvalue : s.memory.word (s.pc + 8) = value := by
    rw [← hliteral, BitVec.add_assoc]
    rfl
  have hruns := runs_load hreads hcond
  rw [haddress] at hruns
  rw [← hvalue]
  exact hruns

/-- **Literals.** A literal is loaded from behind the two words that load it and branch past it. -/
theorem runs_loadLiteral (h : loadLiteral cond rd value = .ok code) (hrd : rd ≠ .pc)
    (hcode : s.memory.Holds s.pc code.words) (hcond : cond.holds s.flags = true) :
    code.words.length = 3 ∧
      Runs s [.fetch s.pc, .load (s.pc + 8) 4, .fetch (s.pc + 4)]
        ((s.goto (s.pc + .ofNat 32 code.size)).write rd value) := by
  obtain ⟨w, hwords, hfirst⟩ := runs_literal h hcode hcond
  rw [Code.size, hwords]
  rw [hwords] at hcode
  refine ⟨rfl, hfirst.trans ?_⟩
  have hend : s.pc + 4 + 8 = s.pc + 12 := by
    rw [BitVec.add_assoc]
    rfl
  have hpc := write_pc_of_ne (s.goto (s.pc + 4)) value hrd
  have hruns := runs_skipLiteral (s := (s.goto (s.pc + 4)).write rd value)
    (by rw [write_memory, hpc]; exact hcode.2.1)
  rw [hpc, write_goto _ _ _ hrd, goto_goto, goto_pc, hend] at hruns
  exact hruns

/-- **Materialised.** A constant is put into a register, and nothing else changes. A literal that
it may come from is part of the code. -/
theorem runs_materialize (h : materialize cond rd value = .ok code) (hrd : rd ≠ .pc)
    (hcode : s.memory.Holds s.pc code.words) (hcond : cond.holds s.flags = true) :
    ∃ events, Runs s events ((s.goto (s.pc + .ofNat 32 code.size)).write rd value) ∧
      FetchesOnly s code.size events := by
  obtain ⟨destination, hdestination, h⟩ := bind_eq_ok.mp h
  have hregisters (op : Opcode) (hmove : op.isMove = true) :
      operandRegisters op none rd = .ok (destination <<< 12) := by
    rw [operandRegisters, if_pos hmove, hdestination]
    rfl
  split at h
  · rename_i field hfield
    cases pure_eq_ok.mp h
    have hop : Opcode.movw.operation? = some .mov := rfl
    have hword : s.memory.word s.pc =
      dataProcessing .movw cond .none ||| field ||| (destination <<< 12) := hcode.1
    obtain ⟨carry, hruns⟩ :=
      runs_immediate hop hfield (hregisters .movw rfl) (not_returns hrd) hword hcond
    exact ⟨_, hruns, .inl rfl⟩
  · rename_i field _ hfield
    cases pure_eq_ok.mp h
    have hop : Opcode.mvn.operation? = some .mvn := rfl
    have hword : s.memory.word s.pc =
      dataProcessing .mvn cond .none ||| field ||| (destination <<< 12) := hcode.1
    obtain ⟨carry, hruns⟩ := runs_immediate hop hfield (hregisters .mvn rfl) (not_returns hrd) hword
      hcond
    refine ⟨[.fetch s.pc], ?_, .inl rfl⟩
    rw [← BitVec.not_not (b := value)]
    exact hruns
  · obtain ⟨hlength, hruns⟩ := runs_loadLiteral h hrd hcode hcond
    have hsize : 12 ≤ code.size := by
      simp [Code.size, hlength]
    exact ⟨_, hruns, .inr ⟨hsize, rfl⟩⟩

end Encode

theorem Code.append_ofWord : c.append (.ofWord w) = .ok ⟨c.words ++ [w], c.relocation⟩ := by
  obtain ⟨words, _ | r⟩ := c <;> rfl

theorem Code.last_append {e : Code} (h : c.append (.ofWord w) = .ok e) :
    e.words = c.words ++ [w] ∧ e.size = c.size + 4 ∧
      ∀ a : Word, a + .ofNat 32 c.size + 4 = a + .ofNat 32 e.size := by
  rw [append_ofWord] at h
  cases h
  have hsize : size ⟨c.words ++ [w], c.relocation⟩ = c.size + 4 := by
    simp [size, Nat.mul_add]
  refine ⟨rfl, hsize, fun a => ?_⟩
  rw [hsize, BitVec.ofNat_add, BitVec.add_assoc]
  rfl

open Cpu in
/-- **By way of the scratch register.** An operation with a constant that was put into the scratch
register before. The other operand is read by the last word, which matters if it is the program
counter. -/
theorem Encode.runs_viaScratch {rn : Option Register} {registers : Word} {constant : Code}
    (hop : op.operation? = some operation)
    (hconstant : materialize cond .scratch value = .ok constant)
    (hregisters : operandRegisters op rn rd = .ok registers) (happend : constant.append (.ofWord
      (dataProcessing op cond suffixes ||| scratchField ||| registers)) = .ok code)
    (hrd : ¬ Returns operation suffixes rd) (hfree : op.isMove = true ∨ rn.getD rd ≠ .scratch)
    (hcode : s.memory.Holds s.pc code.words) (hcond : cond.holds s.flags = true) :
    ∃ events carry, Runs s events
      (((s.goto (s.pc + .ofNat 32 code.size)).write .scratch value).compute operation
        (suffixes.sets operation) rd ((s.last code.size).read (rn.getD rd)) value carry) ∧
          FetchesOnly s code.size events := by
  have hscratch : Register.scratch ≠ .pc := by
    decide
  obtain ⟨hwords, hsize, hend⟩ := Code.last_append happend
  rw [hwords, Memory.holds_append] at hcode
  obtain ⟨events, hruns, hfetches⟩ := runs_materialize hconstant hscratch hcode.1 hcond
  -- the constant stands in the scratch register when the last word is reached
  have hpc := write_pc_of_ne (s.goto (s.pc + .ofNat 32 constant.size)) value hscratch
  have hword : ((s.goto (s.pc + .ofNat 32 constant.size)).write .scratch value).memory.word
      ((s.goto (s.pc + .ofNat 32 constant.size)).write .scratch value).pc =
        dataProcessing op cond suffixes ||| scratchField ||| registers := by
    exact hcode.2.1
  have hlast := runs_scratch hop hregisters hrd hword (by rw [write_flags]; exact hcond)
  rw [hpc, write_goto _ _ _ hscratch, goto_goto, goto_pc, hend,
    write_registers_self _ _ hscratch] at hlast
  have hsame : (s.goto (s.pc + .ofNat 32 constant.size)).read (rn.getD rd) =
      (s.last code.size).read (rn.getD rd) := by
    rw [last, hsize, Nat.add_sub_cancel]
  have hkept : FetchesOnly s code.size events := hfetches.mono (by omega)
  rcases hfree with hmove | hfree
  · rw [compute_of_isMove ((isMove_iff hop).mp hmove) _ _ _ ((s.last code.size).read _)] at hlast
    exact ⟨_, _, hruns.trans hlast, hkept.append rfl⟩
  · rw [read_write_of_ne _ _ hscratch hfree, hsame] at hlast
    exact ⟨_, _, hruns.trans hlast, hkept.append rfl⟩

end ArmLink.Arm
