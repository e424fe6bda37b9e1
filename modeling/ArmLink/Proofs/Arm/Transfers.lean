import ArmLink.Proofs.Arm.Registers
import ArmLink.Proofs.Arm.TransferWords

/-!
# Loads and stores at any offset

A load or store reaches its address by a field of its word if the offset fits, and by way of the
scratch register if it does not. Either way there is a single access, at the address that was asked
for.
-/

namespace ArmLink.Arm

open Cpu List BitVec

variable {s : Cpu} {up : Bool} {offset : Int} {format : Format} {r rt base index : Register}
  {w : Word} {i : Instruction} {busy : List Register} {op : Opcode} {size shift : Nat}

/-! ## What is asked for -/

/-- How far from its base register a number is. -/
inductive Displacement where
  | constant (offset : Int)
  | index (register : Register) (shift : Nat)
  deriving DecidableEq, Repr

/-- What a load or store asks for. -/
structure Transfer where
  load : Bool
  format : Format
  register : Register
  base : Register
  displacement : Displacement
  deriving DecidableEq, Repr

/-- What an opcode loads into a general register. -/
def Opcode.loadFormat? : Opcode → Option Format
  | movw => some .word
  | movb => some .signedByte
  | movbu => some .byte
  | movh => some .signedHalf
  | movhu => some .half
  | _ => none

/-- What an opcode stores from a general register. -/
def Opcode.storeFormat? : Opcode → Option Format
  | movw => some .word
  | movb | movbu => some .byte
  | movh | movhu => some .half
  | _ => none

/-- What an opcode loads into or stores from a floating point register. -/
def Opcode.floatFormat? : Opcode → Option Format
  | movf => some .single
  | movd => some .double
  | _ => none

/-- What an instruction loads or stores. -/
def Instruction.transfer? (i : Instruction) : Option Transfer :=
  match i.form with
  | .load offset base rd => i.op.loadFormat?.map (⟨true, ·, rd, base, .constant offset⟩)
  | .store rs offset base => i.op.storeFormat?.map (⟨false, ·, rs, base, .constant offset⟩)
  | .loadIndexed base index shift rd =>
    i.op.loadFormat?.map (⟨true, ·, rd, base, .index index shift⟩)
  | .storeIndexed rs base index shift =>
    i.op.storeFormat?.map (⟨false, ·, rs, base, .index index shift⟩)
  | .floatLoad offset base fd => i.op.floatFormat?.map (⟨true, ·, fd, base, .constant offset⟩)
  | .floatStore fs offset base => i.op.floatFormat?.map (⟨false, ·, fs, base, .constant offset⟩)
  | _ => none

def Form.isTransfer : Form → Bool
  | load .. | store .. | loadIndexed .. | storeIndexed .. | floatLoad .. | floatStore .. => true
  | _ => false

/-- Whether numbers of a format are in floating point registers. -/
def Format.isFloat : Format → Bool
  | single | double => true
  | _ => false

/-- The number of offsets that fit in the field of an access. -/
def Format.reach : Format → Nat
  | word | byte => 0x1000
  | single | double => 0x400
  | _ => 0x100

/-- The number of shifts of an index. -/
def Format.shifts : Format → Nat
  | word | byte => 32
  | _ => 1

namespace Transfer

def registers (t : Transfer) : List Register :=
  match t.displacement with
  | .constant _ => [t.base, t.register]
  | .index r _ => [r, t.base, t.register]

def address (t : Transfer) (s : Cpu) : Word :=
  s.registers t.base +
    match t.displacement with
    | .constant offset => .ofInt 32 offset
    | .index r shift => s.registers r <<< shift

/-- The program counter takes no part in a transfer, other than to be loaded. -/
structure AvoidsPc (t : Transfer) : Prop where
  base : t.base ≠ .pc
  index : ∀ r shift, t.displacement = .index r shift → r ≠ .pc
  stored : t.load = false → t.format.isFloat = false → t.register ≠ .pc

/-- What a transfer of `size` bytes of code has done at an address, with a number that is stored:
the one access beside a literal, and then the register is loaded, or the memory holds the number.
Only the scratch register may change besides. -/
structure DoneAt (t : Transfer) (a : Word) (number : Word64) (size : Nat) (s s' : Cpu)
    (events : List Event) : Prop where
  /-- what is read beside the access is the code -/
  accesses : ∃ fetched, FetchesOnly s size fetched ∧
    events.filter Event.isAccess = fetched.filter Event.isAccess ++
      [if t.load then .load a t.format.size else .store a t.format.size]
  /-- the state is as it was behind the code, but for the transfer and the scratch register -/
  state : ∃ temporary,
    let after := (s.goto (s.pc + .ofNat 32 size)).write .scratch temporary
    s' = if t.load then after.load t.format t.register a
      else { after with memory := s.memory.store a t.format.size number }

/-- What a transfer has done at its own address, where what was in the register before is stored. -/
def Done (t : Transfer) (size : Nat) (s s' : Cpu) (events : List Event) : Prop :=
  t.DoneAt (t.address s) (s.stored t.format t.register) size s s' events

/-- The access itself is made by the last word, wherever the address comes from. -/
theorem doneAt_of_reads (t : Transfer) {cond : Condition} {p temporary : Word}
    {fetched : List Event} {offset : Offset}
    (hruns : Runs s fetched ((s.goto p).write .scratch temporary))
    (hfetched : FetchesOnly s size fetched) (hend : p + 4 = s.pc + .ofNat 32 size)
    (hreads : Reads (s.memory.word p) cond (.transfer t.load t.format up base t.register offset))
    (hcond : cond.holds s.flags = true) : ∃ events s', Runs s events s' ∧
      t.DoneAt (((s.goto p).write .scratch temporary).address up base offset)
        (((s.goto p).write .scratch temporary).stored t.format t.register) size s s' events := by
  obtain ⟨load, format, register, tbase, displacement⟩ := t
  have hscratch : Register.scratch ≠ .pc := by
    decide
  have hpc := write_pc_of_ne (s.goto p) temporary hscratch
  have hword : ((s.goto p).write .scratch temporary).memory.word
      ((s.goto p).write .scratch temporary).pc = s.memory.word p := by
    rfl
  rw [← hword] at hreads
  have hafter : ((s.goto p).write .scratch temporary).goto
      (((s.goto p).write .scratch temporary).pc + 4) =
        (s.goto (s.pc + .ofNat 32 size)).write .scratch temporary := by
    rw [hpc, goto_pc, hend, write_goto _ _ _ hscratch, goto_goto]
  cases load with
  | true =>
    have hload := runs_load hreads hcond
    rw [hafter, hpc] at hload
    refine ⟨_, _, hruns.trans hload, ⟨⟨fetched, hfetched, ?_⟩, temporary, rfl⟩⟩
    rw [filter_append]
    rfl
  | false =>
    have hstore := runs_store hreads hcond
    rw [hafter, hpc, write_memory] at hstore
    refine ⟨_, _, hruns.trans hstore, ⟨⟨fetched, hfetched, ?_⟩, temporary, rfl⟩⟩
    rw [filter_append]
    rfl

end Transfer

/-! ## All ways to an address -/

/-- What is at a distance from an address, above or below it. -/
def displaced (subtract : Bool) (a distance : Word) : Word :=
  if subtract then a - distance else a + distance

/-- An offset is added or subtracted according to its sign and the suffix. -/
theorem Cpu.address_constant (s : Cpu) (subtract : Bool) (base : Register) (offset : Int) :
    s.address (decide (0 ≤ offset) == !subtract) base (.constant (.ofNat 32 offset.natAbs)) =
      displaced subtract (s.read base) (.ofInt 32 offset) := by
  unfold Cpu.address displaced
  dsimp only
  rw [← ofInt_natCast]
  by_cases hup : 0 ≤ offset
  · rw [decide_eq_true hup, Int.natAbs_of_nonneg hup]
    cases subtract <;> rfl
  · rw [decide_eq_false hup, Int.ofNat_natAbs_of_nonpos (by omega), ofInt_neg]
    cases subtract with
    | false =>
      rw [sub_eq_add_neg, neg_neg]
      rfl
    | true =>
      rw [← sub_eq_add_neg]
      rfl

theorem Cpu.address_scratch (s : Cpu) (subtract : Bool) (w : Word) (hbase : base ≠ .scratch) :
    (s.write .scratch w).address (!subtract) base (.register .scratch 0) =
      displaced subtract (s.read base) w := by
  unfold Cpu.address displaced
  dsimp only
  have hscratch : (s.write .scratch w).read .scratch = w := write_registers_self _ _ (by decide)
  rw [read_write_of_ne _ _ (by decide) hbase, hscratch, shiftLeft_zero]
  cases subtract <;> rfl

theorem Cpu.stored_write_scratch (s : Cpu) (w : Word) (h : format.isFloat = true ∨ r ≠ .scratch) :
    (s.write .scratch w).stored format r = s.stored format r := by
  rcases h with hfloat | hscratch
  · cases format with
    | single => simp [stored]
    | double => simp [stored]
    | _ => cases hfloat
  · have hread := read_write_of_ne s w (r := .scratch) (by decide) hscratch
    cases format <;> simp [stored, hread]

theorem Cpu.stored_goto (s : Cpu) (a : Word) (h : format.isFloat = true ∨ r ≠ .pc) :
    (s.goto a).stored format r = s.stored format r := by
  rcases h with hfloat | hpc
  · cases format with
    | single => rfl
    | double => rfl
    | _ => cases hfloat
  · simp only [stored, read_of_ne _ hpc, goto_registers, goto_floats]

namespace Encode

variable {cond : Condition} {suffixes : Suffixes} {code : Code}

theorem mayMaterialize_of_plain (hplain : suffixes.Plain) : mayMaterialize suffixes = true :=
  mayMaterialize_iff.mpr ⟨hplain.postIndex, hplain.writeback⟩

theorem subtracts_of_plain (hplain : suffixes.Plain) (format : Format) :
    format.subtracts suffixes = false := by
  cases format <;> first | rfl | exact hplain.subtract

theorem fetchesOnly_nil (s : Cpu) (size : Nat) : FetchesOnly s size [] := .inl rfl

/-- A word that transfers does so at the address that it names. -/
theorem doneAt_of_word (t : Transfer) {offset : Offset}
    (hreads : Reads w cond (.transfer t.load t.format up t.base t.register offset))
    (hcode : s.memory.Holds s.pc [w]) (hcond : cond.holds s.flags = true) :
    ∃ events s', Runs s events s' ∧ t.DoneAt (s.address up t.base offset)
      (s.stored t.format t.register) (Code.ofWord w).size s s' events := by
  have hkept : (s.goto s.pc).write .scratch (s.registers .scratch) = s :=
    write_self s (by decide)
  have hruns : Runs s [] ((s.goto s.pc).write .scratch (s.registers .scratch)) := by
    rw [hkept]
    exact .refl s
  have hdone := t.doneAt_of_reads hruns (fetchesOnly_nil s (Code.ofWord w).size) rfl
    (hcode.1 ▸ hreads) hcond
  rw [hkept] at hdone
  exact hdone

/-- **Indexed.** An access at the offset in a register. -/
theorem done_indexed {load : Bool} (hformat : format.isGeneral load = true)
    (hplain : i.suffixes.Plain) (h : indexed i (some format.access) base index shift rt = .ok w)
    (hbase : base ≠ .pc) (hindex : index ≠ .pc) (hcode : s.memory.Holds s.pc [w ^^^ flip load])
    (hcond : i.condition.holds s.flags = true) :
    ∃ events s', Runs s events s' ∧ Transfer.Done ⟨load, format, rt, base, .index index shift⟩
      (Code.ofWord (w ^^^ flip load)).size s s' events := by
  have hreads := reads_indexed hformat (mayMaterialize_of_plain hplain) h
  obtain ⟨events, s', hruns, hdone⟩ :=
    doneAt_of_word ⟨load, format, rt, base, .index index shift⟩ hreads hcode hcond
  have haddress : s.address (!format.subtracts i.suffixes) base (.register index shift) =
      Transfer.address ⟨load, format, rt, base, .index index shift⟩ s := by
    unfold Cpu.address Transfer.address
    dsimp only
    rw [subtracts_of_plain hplain, Bool.not_false, if_pos rfl, read_of_ne _ hbase,
      read_of_ne _ hindex]
  rw [haddress] at hdone
  exact ⟨events, s', hruns, hdone⟩

/-- **Constant offsets.** An access at any constant offset, between memory and a general register.
Its last word reads the base and what is stored. -/
theorem doneAt_access {load : Bool} (hformat : format.isGeneral load = true)
    (hkeep : mayMaterialize suffixes = true)
    (h : format.access.code (flip load) offset base rt busy cond suffixes = .ok code)
    (hbusy : base ∈ busy ∧ (load = false → rt ∈ busy)) (hcode : s.memory.Holds s.pc code.words)
    (hcond : cond.holds s.flags = true) : ∃ events s', Runs s events s' ∧
      Transfer.DoneAt ⟨load, format, rt, base, .constant offset⟩
        (displaced (format.subtracts suffixes) ((s.last code.size).read base)
          (.ofInt 32 offset))
        ((s.last code.size).stored format rt) code.size s s' events := by
  unfold Access.code at h
  split at h
  · obtain ⟨w, hw, ⟨⟩⟩ := bind_pure_eq_ok.mp h
    rw [last_ofWord, ← address_constant]
    exact doneAt_of_word ⟨load, format, rt, base, .constant offset⟩
      (reads_direct hformat hkeep hw) hcode hcond
  split at h
  · cases h
  rename_i hfree
  have hne {r : Register} (hr : r ∈ busy) : r ≠ .scratch := by
    rintro rfl
    exact hfree (contains_iff_mem.mpr hr)
  obtain ⟨constant, hconstant, h⟩ := bind_eq_ok.mp h
  obtain ⟨w, hw, h⟩ := bind_eq_ok.mp h
  obtain ⟨hwords, hsize, hend⟩ := Code.last_append h
  rw [hwords, Memory.holds_append] at hcode
  obtain ⟨fetched, hruns, hfetched⟩ := runs_materialize hconstant (by decide) hcode.1 hcond
  have hreads : Reads (w ^^^ flip load) cond _ := reads_viaScratch hformat hkeep hw
  rw [← hcode.2.1] at hreads
  obtain ⟨events, s', hruns, hdone⟩ :=
    Transfer.doneAt_of_reads ⟨load, format, rt, base, .constant offset⟩ hruns
      (hfetched.mono (by omega)) (hend s.pc) hreads hcond
  have hlast : s.last code.size = s.goto (s.pc + .ofNat 32 constant.size) := by
    rw [last, hsize, Nat.add_sub_cancel]
  rw [address_scratch _ _ _ (hne hbusy.1), ← hlast] at hdone
  refine ⟨events, s', hruns, hdone.accesses, ?_⟩
  -- a load stores nothing, and may load the scratch register
  cases load with
  | true => exact hdone.state
  | false =>
    rw [stored_write_scratch _ _ (.inr (hne (hbusy.2 rfl)))] at hdone
    exact hdone.state

theorem done_access {load : Bool} (hformat : format.isGeneral load = true) (hplain : suffixes.Plain)
    (h : format.access.code (flip load) offset base rt busy cond suffixes = .ok code)
    (hbusy : base ∈ busy ∧ (load = false → rt ∈ busy)) (hbase : base ≠ .pc)
    (hstored : load = false → rt ≠ .pc) (hcode : s.memory.Holds s.pc code.words)
    (hcond : cond.holds s.flags = true) : ∃ events s', Runs s events s' ∧
      Transfer.Done ⟨load, format, rt, base, .constant offset⟩ code.size s s' events := by
  obtain ⟨events, s', hruns, hdone⟩ :=
    doneAt_access hformat (mayMaterialize_of_plain hplain) h hbusy hcode hcond
  rw [subtracts_of_plain hplain, read_last_of_ne _ hbase] at hdone
  refine ⟨events, s', hruns, hdone.accesses, ?_⟩
  cases load with
  | true => exact hdone.state
  | false =>
    rw [last, stored_goto _ _ (.inr (hstored rfl))] at hdone
    exact hdone.state

theorem runs_addOffset {constant sum : Code} {b : Word}
    (hconstant : materialize cond .scratch (.ofInt 32 offset) = .ok constant)
    (hb : register base = .ok b)
    (hsum : constant.append (.ofWord (dataProcessing .add cond .none ||| scratchField |||
      (b <<< 16) ||| (scratchField <<< 12))) = .ok sum) (hbase : base ≠ .pc)
    (hfree : base ≠ .scratch) (hcode : s.memory.Holds s.pc sum.words)
    (hcond : cond.holds s.flags = true) :
    ∃ fetched, Runs s fetched ((s.goto (s.pc + .ofNat 32 sum.size)).write .scratch
        (s.registers base + .ofInt 32 offset)) ∧
      FetchesOnly s sum.size fetched := by
  have hscratch : Register.scratch ≠ .pc := by
    decide
  have hregisters : operandRegisters .add (some base) .scratch =
      .ok ((b <<< 16) ||| (scratchField <<< 12)) := by
    simp only [operandRegisters, Opcode.isMove, Opcode.isComparison, Option.getD_some, hb]
    rfl
  have hop : Opcode.add.operation? = some .add := rfl
  rw [BitVec.or_assoc] at hsum
  obtain ⟨fetched, carry, hruns, hfetched⟩ := runs_viaScratch hop hconstant hregisters hsum
    (not_returns hscratch) (.inr hfree) hcode hcond
  rw [Option.getD_some, read_last_of_ne _ hbase] at hruns
  refine ⟨fetched, ?_, hfetched⟩
  rw [← write_write _ (.ofInt 32 offset) hscratch]
  exact hruns

theorem double?_eq {double : Bool} : op.floatFormat? = some (if double then .double else .single) →
      (match op with | .movf => some false | .movd => some true | _ => none) = some double := by
  intro hop
  cases op <;> cases double <;> cases hop <;> rfl

/-- **Floating point.** An access at any constant offset, between memory and a floating point
register. -/
theorem done_float {double load : Bool} {fd : Register}
    (hop : i.op.floatFormat? = some (if double then .double else .single))
    (hplain : i.suffixes.Plain) (h : floatMemory i (flip load) offset base fd = .ok code)
    (hbase : base ≠ .pc) (hcode : s.memory.Holds s.pc code.words)
    (hcond : i.condition.holds s.flags = true) : ∃ events s', Runs s events s' ∧
      Transfer.Done ⟨load, if double then .double else .single, fd, base, .constant offset⟩
        code.size s s' events := by
  have hkeep := mayMaterialize_of_plain hplain
  have hfloat : (if double then Format.double else .single).isFloat = true := by
    cases double <;> rfl
  unfold floatMemory at h
  dsimp only at h
  split at h
  · cases h
  rename_i hdouble
  cases (double?_eq hop).symm.trans hdouble
  split at h
  · cases h
  rename_i hwords
  split at h
  · rename_i hlt
    obtain ⟨w, hw, ⟨⟩⟩ := bind_pure_eq_ok.mp h
    obtain ⟨events, s', hruns, hdone⟩ :=
      doneAt_of_word ⟨load, if double then .double else .single, fd, base, .constant offset⟩
        (reads_float hkeep hlt (not_not.mp hwords) hw) hcode hcond
    have haddress := s.address_constant false base offset
    rw [Bool.not_false, beq_true, read_of_ne _ hbase] at haddress
    rw [haddress] at hdone
    exact ⟨events, s', hruns, hdone⟩
  split at h
  · cases h
  split at h
  · cases h
  rename_i hfree
  obtain ⟨constant, hconstant, h⟩ := bind_eq_ok.mp h
  obtain ⟨b, hb, h⟩ := bind_eq_ok.mp h
  obtain ⟨sum, hsum, h⟩ := bind_eq_ok.mp h
  obtain ⟨w, hw, h⟩ := bind_eq_ok.mp h
  obtain ⟨happend, hsize, hend⟩ := Code.last_append h
  rw [happend, Memory.holds_append] at hcode
  obtain ⟨fetched, hruns, hfetched⟩ :=
    runs_addOffset hconstant hb hsum hbase hfree hcode.1 hcond
  have hreads : Reads (w ^^^ flip load) i.condition _ :=
    reads_float hkeep (by decide) (by decide) hw
  rw [← hcode.2.1] at hreads
  obtain ⟨events, s', hruns, hdone⟩ := Transfer.doneAt_of_reads
    ⟨load, if double then .double else .single, fd, base, .constant offset⟩ hruns
    (hfetched.mono (by omega)) (hend s.pc) hreads hcond
  -- the sum is in the scratch register, and nothing is added to it
  have haddress := Cpu.address_constant ((s.goto (s.pc + .ofNat 32 sum.size)).write .scratch
    (s.registers base + .ofInt 32 offset)) false .scratch 0
  have hzero (w : Word) : displaced false w (.ofInt 32 0) = w := BitVec.add_zero w
  rw [Bool.not_false, beq_true, read_of_ne _ (by decide), write_registers_self _ _ (by decide),
    hzero] at haddress
  rw [haddress, stored_write_scratch _ _ (.inl hfloat), stored_goto _ _ (.inl hfloat)] at hdone
  exact ⟨events, s', hruns, hdone⟩

end Encode

/-! ## Refusals -/

/-- Why a load or store has no code. -/
inductive Instruction.RefusedTransfer (i : Instruction) : EncodeError → Prop
  | noForm (h : i.transfer? = none) : RefusedTransfer i (.noForm i.op i.form)
  | missing {t : Transfer} {e : EncodeError} (ht : i.transfer? = some t)
      (h : Encode.Missing t.registers e) : RefusedTransfer i e
  /-- the offset of a floating point number is not a number of words -/
  | oddOffset {t : Transfer} {offset : Int} (ht : i.transfer? = some t)
      (hfloat : t.format.isFloat = true) (hoffset : t.displacement = .constant offset)
      (hodd : offset % 4 ≠ 0) : RefusedTransfer i (.oddOffset offset)
  | farShift {t : Transfer} {r : Register} {shift : Nat} (ht : i.transfer? = some t)
      (hindex : t.displacement = .index r shift) (hfar : t.format.shifts ≤ shift) :
      RefusedTransfer i (.farShift shift)
  | shiftedIndex {t : Transfer} {r : Register} {shift : Nat} (ht : i.transfer? = some t)
      (hindex : t.displacement = .index r shift) (hfar : t.format.shifts ≤ shift) :
      RefusedTransfer i (.shiftedIndex i.op)
  /-- the offset needs the scratch register, which is the base or is to be stored -/
  | scratchAddress {t : Transfer} {offset : Int} (ht : i.transfer? = some t)
      (hoffset : t.displacement = .constant offset) (hfar : t.format.reach ≤ offset.natAbs)
      (hbusy : t.base = .scratch ∨
        t.load = false ∧ t.format.isFloat = false ∧ t.register = .scratch) :
      RefusedTransfer i .scratchAddress

namespace Encode

section Refused

variable {cond : Condition} {suffixes : Suffixes} {load : Bool} {e : EncodeError}

theorem span_access (hformat : format.isGeneral load = true) :
    format.access.span = format.reach := by
  cases format with
  | single => cases hformat
  | double => cases hformat
  | _ => rfl

/-- An access fails for a missing register, or if the scratch register is not free. -/
theorem access_eq_error {flip : Word} (hplain : suffixes.Plain)
    (hformat : format.isGeneral load = true)
    (h : format.access.code flip offset base rt busy cond suffixes = .error e) :
    Missing [base, rt] e ∨
      e = .scratchAddress ∧ format.reach ≤ offset.natAbs ∧ Register.scratch ∈ busy := by
  rw [Access.code, mayMaterialize_of_plain hplain, Bool.not_true, Bool.or_false] at h
  rw [← span_access hformat]
  split at h
  · rename_i hlt
    exact .inl (((needs_direct (of_decide_eq_true hlt)).bind fun _ => needs_pure _ _).of_error h)
  rename_i hfar
  split at h
  · rename_i hbusy
    cases h
    refine .inr ⟨rfl, ?_, contains_iff_mem.mp hbusy⟩
    exact Nat.le_of_not_lt fun hlt => hfar (decide_eq_true hlt)
  · refine .inl (Gives.of_error (P := fun _ => True) ?_ h)
    exact (needs_materialize_scratch _).bind fun _ =>
      needs_viaScratch.bind fun _ => needs_append _ _ _

theorem floatMemory_eq_error {double : Bool} {flip : Word}
    (hop : i.op.floatFormat? = some (if double then .double else .single))
    (hplain : i.suffixes.Plain) (h : floatMemory i flip offset base rt = .error e) :
    Missing [base, rt] e ∨ (e = .oddOffset offset ∧ offset % 4 ≠ 0) ∨
      (e = .scratchAddress ∧ 0x400 ≤ offset.natAbs ∧ base = .scratch) := by
  unfold floatMemory at h
  dsimp only at h
  rw [mayMaterialize_of_plain hplain, Bool.not_true] at h
  split at h
  · rename_i hdouble
    cases (double?_eq hop).symm.trans hdouble
  rename_i hdouble
  cases (double?_eq hop).symm.trans hdouble
  split at h
  · rename_i hodd
    cases h
    exact .inr (.inl ⟨rfl, hodd⟩)
  split at h
  · exact .inl ((needs_floatWord.bind fun _ => needs_pure _ _).of_error h)
  rename_i hfar
  rw [if_neg Bool.false_ne_true] at h
  split at h
  · rename_i hbusy
    cases h
    exact .inr (.inr ⟨rfl, Nat.le_of_not_lt hfar, hbusy⟩)
  · refine .inl (Gives.of_error (P := fun _ => True) ?_ h)
    refine (needs_materialize_scratch _).bind fun _ => ?_
    refine (needs_register mem_cons_self).bind fun _ => ?_
    refine (needs_append _ _ _).bind fun _ => ?_
    refine Needs.bind ?_ fun _ => needs_append _ _ _
    exact (needs_floatWord.of_lt (by decide)).mono (subset_cons_self _ _)

theorem indexed_eq_error (hformat : format.isGeneral load = true)
    (h : indexed i (some format.access) base index shift rt = .error e) :
    Missing [index, base, rt] e ∨
      (e = .farShift shift ∨ e = .shiftedIndex i.op) ∧ format.shifts ≤ shift := by
  unfold indexed at h
  split at h
  · rename_i bits haccess
    rcases bind_eq_error.mp h with h | ⟨w, hw, h⟩
    · rcases bind_eq_error.mp h with h | ⟨x, -, h⟩
      · exact .inl ((needs_register mem_cons_self).of_error h)
      · dsimp only at h
        split at h
        · cases h
        · rename_i hfar
          cases h
          refine .inr ⟨.inl rfl, ?_⟩
          cases format with
          | word => exact Nat.le_of_not_lt hfar
          | byte => exact Nat.le_of_not_lt hfar
          | single => cases hformat
          | double => cases hformat
          | _ => cases haccess
    · obtain ⟨x, amount, -, -, rfl⟩ := shiftedRegister_eq_ok hw
      have hlt : (((shiftLow amount .lsl x).setWidth 32).toNat : Int).natAbs < 0x1000 := by
        rw [Int.natAbs_natCast, toNat_setWidth_of_le (by decide)]
        exact isLt _
      refine .inl (Gives.of_error (P := fun _ => True) ?_ h)
      exact ((needs_loadWord hlt).mono (subset_cons_self _ _)).bind fun _ => needs_pure _ _
  · rename_i bits haccess
    split at h
    · exact .inl ((needs_loadHalfRegister.bind fun _ => needs_pure _ _).of_error h)
    · rename_i hshift
      cases h
      refine .inr ⟨.inr rfl, ?_⟩
      have hpos : 1 ≤ shift := Nat.one_le_iff_ne_zero.mpr hshift
      cases format with
      | half => exact hpos
      | signedByte => exact hpos
      | signedHalf => exact hpos
      | _ => cases haccess
  · rename_i haccess
    cases haccess

end Refused

end Encode

/-! ## All forms -/

namespace Instruction

/-- Whatever comes of it, it is what the instruction asks for, or the reason why there is no such
code. -/
structure Transfers (i : Instruction) (x : Except EncodeError Code) : Prop where
  done : ∀ code, x = .ok code → ∃ t, i.transfer? = some t ∧
    (t.AvoidsPc → ∀ s : Cpu, s.memory.Holds s.pc code.words → i.condition.holds s.flags = true →
      ∃ events s', Runs s events s' ∧ t.Done code.size s s' events)
  refused : ∀ e, x = .error e → i.RefusedTransfer e

variable {load : Bool}

theorem transfers_noForm (h : i.transfer? = none) : i.Transfers (.error (.noForm i.op i.form)) := by
  refine ⟨fun code hcode => ?_, fun e he => ?_⟩
  · cases hcode
  · cases he
    exact .noForm h

theorem transfers_access (load : Bool) (busy : List Register)
    (ht : i.transfer? = some ⟨load, format, rt, base, .constant offset⟩)
    (hformat : format.isGeneral load = true) (hplain : i.suffixes.Plain) (hbase : base ∈ busy)
    (hstored : load = false → rt ∈ busy) (hbusy : ∀ r ∈ busy, r = base ∨ load = false ∧ r = rt) :
    i.Transfers (format.access.code (Encode.flip load) offset base rt busy i.condition
      i.suffixes) := by
  have hfloat : format.isFloat = false := by
    cases format <;> first | rfl | cases hformat
  refine ⟨fun code hcode => ⟨_, ht, ?_⟩, fun e he => ?_⟩
  · intro havoids s hholds hcond
    exact Encode.done_access hformat hplain hcode ⟨hbase, hstored⟩ havoids.base
      (fun hload => havoids.stored hload hfloat) hholds hcond
  · rcases Encode.access_eq_error hplain hformat he with h | ⟨rfl, hfar, h⟩
    · exact .missing ht h
    · refine .scratchAddress ht rfl hfar ?_
      exact (hbusy _ h).imp Eq.symm fun hrt => ⟨hrt.1, hfloat, hrt.2.symm⟩

theorem transfers_indexed (load : Bool)
    (ht : i.transfer? = some ⟨load, format, rt, base, .index index shift⟩)
    (hformat : format.isGeneral load = true) (hplain : i.suffixes.Plain) : i.Transfers (do
      let w ← Encode.indexed i (some format.access) base index shift rt
      return .ofWord (w ^^^ Encode.flip load)) := by
  refine ⟨fun code hcode => ⟨_, ht, ?_⟩, fun e he => ?_⟩
  · intro havoids s hholds hcond
    obtain ⟨w, hw, ⟨⟩⟩ := bind_pure_eq_ok.mp hcode
    exact Encode.done_indexed hformat hplain hw havoids.base (havoids.index _ _ rfl) hholds hcond
  · rcases bind_eq_error.mp he with he | ⟨_, -, he⟩
    · rcases Encode.indexed_eq_error hformat he with h | ⟨rfl | rfl, hfar⟩
      · exact .missing ht h
      · exact .farShift ht rfl hfar
      · exact .shiftedIndex ht rfl hfar
    · cases he

theorem transfers_float (hop : i.op.floatFormat? = some format)
    (ht : i.transfer? = some ⟨load, format, rt, base, .constant offset⟩)
    (hplain : i.suffixes.Plain) :
    i.Transfers (Encode.floatMemory i (Encode.flip load) offset base rt) := by
  obtain ⟨double, rfl⟩ : ∃ double : Bool, format = if double then .double else .single := by
    cases hcode : i.op <;> rw [hcode] at hop <;> cases hop
    · exact ⟨false, rfl⟩
    · exact ⟨true, rfl⟩
  have hfloat : (if double then Format.double else .single).isFloat = true := by
    cases double <;> rfl
  have hreach : (if double then Format.double else .single).reach = 0x400 := by
    cases double <;> rfl
  refine ⟨fun code hcode => ⟨_, ht, ?_⟩, fun e he => ?_⟩
  · intro havoids s hholds hcond
    exact Encode.done_float hop hplain hcode havoids.base hholds hcond
  · rcases Encode.floatMemory_eq_error hop hplain he with h | ⟨rfl, hodd⟩ | ⟨rfl, hfar, hbase⟩
    · exact .missing ht h
    · exact .oddOffset ht hfloat rfl hodd
    · exact .scratchAddress ht rfl (hreach ▸ hfar) (.inl hbase)

theorem floatMemory_noForm (hop : i.op.floatFormat? = none) (flip : Word) (offset : Int)
    (base rt : Register) :
    Encode.floatMemory i flip offset base rt = .error (.noForm i.op i.form) := by
  cases hcode : i.op with
  | movf =>
    rw [hcode] at hop
    cases hop
  | movd =>
    rw [hcode] at hop
    cases hop
  | _ => simp only [Encode.floatMemory, hcode]

theorem transfers_floatMemory (load : Bool)
    (ht : i.transfer? = i.op.floatFormat?.map (⟨load, ·, rt, base, .constant offset⟩))
    (hplain : i.suffixes.Plain) :
    i.Transfers (Encode.floatMemory i (Encode.flip load) offset base rt) := by
  cases hop : i.op.floatFormat? with
  | none =>
    rw [hop] at ht
    rw [floatMemory_noForm hop]
    exact transfers_noForm ht
  | some format =>
    rw [hop] at ht
    exact transfers_float hop ht hplain

theorem loadAccess?_eq : Encode.loadAccess? op = op.loadFormat?.map Format.access := by
  cases op <;> rfl

theorem storeAccess?_eq : Encode.storeAccess? op = op.storeFormat?.map Format.access := by
  cases op <;> rfl

theorem isGeneral_of_loadFormat? (h : op.loadFormat? = some format) :
    format.isGeneral true = true := by
  cases op <;> cases h <;> rfl

theorem isGeneral_of_storeFormat? (h : op.storeFormat? = some format) :
    format.isGeneral false = true := by
  cases op <;> cases h <;> rfl

theorem isFloat_of_floatFormat? (h : op.floatFormat? = some format) : format.isFloat = true := by
  cases op <;> cases h <;> rfl

theorem transfers_load (hform : i.form = .load offset base rt) (hplain : i.suffixes.Plain) :
    i.Transfers (Encode.load i offset base rt) := by
  rw [Encode.load, loadAccess?_eq]
  cases hop : i.op.loadFormat? with
  | none => exact transfers_noForm (by simp [transfer?, hform, hop])
  | some format =>
    refine transfers_access true [base] (by simp [transfer?, hform, hop])
      (isGeneral_of_loadFormat? hop) hplain mem_cons_self nofun fun r hr => ?_
    exact .inl (mem_singleton.mp hr)

theorem transfers_store (hform : i.form = .store rt offset base) (hplain : i.suffixes.Plain) :
    i.Transfers (Encode.store i rt offset base) := by
  rw [Encode.store, storeAccess?_eq]
  cases hop : i.op.storeFormat? with
  | none => exact transfers_noForm (by simp [transfer?, hform, hop])
  | some format =>
    refine transfers_access false [base, rt] (by simp [transfer?, hform, hop])
      (isGeneral_of_storeFormat? hop) hplain mem_cons_self
      (fun _ => mem_cons_of_mem _ mem_cons_self) fun r hr => ?_
    rcases mem_cons.mp hr with h | h
    · exact .inl h
    · exact .inr ⟨rfl, mem_singleton.mp h⟩

/-- **All forms.** The code of a transfer does what the transfer asks for. -/
theorem transfers_encode (hform : i.form.isTransfer = true) (hplain : i.suffixes.Plain) (pc : Nat)
    (labels : String → Option Nat) : i.Transfers (encode i pc labels) := by
  have hzero (w : Word) : w = w ^^^ Encode.flip true := xor_zero.symm
  cases hcase : i.form with
  | load offset base rd =>
    simp only [encode, Encode.form, hcase]
    exact transfers_load hcase hplain
  | store rs offset base =>
    simp only [encode, Encode.form, hcase]
    exact transfers_store hcase hplain
  | loadIndexed base index shift rd =>
    simp only [encode, Encode.form, hcase, loadAccess?_eq]
    cases hop : i.op.loadFormat? with
    | none => exact transfers_noForm (by simp [transfer?, hcase, hop])
    | some format =>
      have ht : i.transfer? = some ⟨true, format, rd, base, .index index shift⟩ := by
        simp [transfer?, hcase, hop]
      have h := transfers_indexed true ht (isGeneral_of_loadFormat? hop) hplain
      simp only [← hzero] at h
      exact h
  | storeIndexed rs base index shift =>
    simp only [encode, Encode.form, hcase, storeAccess?_eq]
    cases hop : i.op.storeFormat? with
    | none => exact transfers_noForm (by simp [transfer?, hcase, hop])
    | some format =>
      exact transfers_indexed false (by simp [transfer?, hcase, hop])
        (isGeneral_of_storeFormat? hop) hplain
  | floatLoad offset base fd =>
    simp only [encode, Encode.form, hcase]
    exact transfers_floatMemory true (by rw [transfer?, hcase]) hplain
  | floatStore fs offset base =>
    simp only [encode, Encode.form, hcase]
    exact transfers_floatMemory false (by rw [transfer?, hcase]) hplain
  | _ =>
    rw [hcase] at hform
    cases hform

end Instruction

/-- **Loads and stores.** Whatever its offset, a load or store makes a single access beside the
fetch of a literal, at the address it asks for and of the width it asks for. A load sets its
register, a store puts into memory what its register held before, and nothing else changes but the
scratch register. There is no code only if a register does not exist, if the opcode has no such
form, if the offset of a floating point number is not a number of words, if the form has no such
shift, or if the offset needs the scratch register, which is the base or is to be stored. -/
theorem transfers_reach_addresses {i : Instruction} (hform : i.form.isTransfer = true)
    (hplain : i.suffixes.Plain) (pc : Nat) (labels : String → Option Nat) :
    (∀ code, encode i pc labels = .ok code → ∃ t, i.transfer? = some t ∧
      (t.AvoidsPc → ∀ s : Cpu, s.memory.Holds s.pc code.words →
        i.condition.holds s.flags = true →
          ∃ events s', Runs s events s' ∧ t.Done code.size s s' events)) ∧
      ∀ e, encode i pc labels = .error e → i.RefusedTransfer e := by
  have h := Instruction.transfers_encode hform hplain pc labels
  exact ⟨h.done, h.refused⟩

/-- A halfword is stored, if it is greater or equal, at an offset that fits no field. -/
def storeFar (base : Register) : Instruction :=
  ⟨.movh, .ge, .none, .store 3 (-0x12345678) base, none⟩

/-- The words of `storeFar` with the first register: the offset, and then the store. -/
def storeFarWords : List Word := [0xa59fb000, 0xea000000, 0xedcba988, 0xa18130bb]

theorem transfers_reach_addresses_sample :
    let s := Cpu.before storeFarWords ⟨false, false, false, false⟩
    (∃ events s', Runs s events s' ∧
      Transfer.Done ⟨false, .half, 3, 1, .constant (-0x12345678)⟩ 16 s s' events) ∧
        (storeFar 11).RefusedTransfer .scratchAddress := by
  have hplain : Suffixes.none.Plain := ⟨rfl, rfl, rfl⟩
  have hcode : encode (storeFar 1) 0 (fun _ => none) = .ok ⟨storeFarWords, none⟩ := by
    decide +kernel
  have hholds : (Memory.ofWords storeFarWords).Holds 0 storeFarWords := by
    refine ⟨?_, ?_, ?_, ?_, trivial⟩ <;> decide +kernel
  constructor
  · obtain ⟨t, ht, hdone⟩ :=
      (transfers_reach_addresses (i := storeFar 1) rfl hplain 0 (fun _ => none)).1 _ hcode
    cases ht
    exact hdone ⟨by decide, nofun, by decide⟩
      (.before storeFarWords ⟨false, false, false, false⟩) hholds rfl
  · exact (transfers_reach_addresses (i := storeFar 11) rfl hplain 0 (fun _ => none)).2 _
      (by decide +kernel)

end ArmLink.Arm
