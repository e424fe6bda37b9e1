import ArmLink.Arm.Encode
import ArmLink.Proofs.Arm.Immediate
import ArmLink.Proofs.Arm.Processor

/-!
# Decoding what was encoded

The words that an encoder puts together are read back by a processor: each of them has the
condition that went in, and stands for one action with the registers and constants that went in.
-/

namespace ArmLink.Arm

open BitVec
open Word (pack)

variable {low : BitVec 12} {kind : BitVec 3} {offset : Offset}

/-! ## Control bytes -/

def Operation.code : Operation → BitVec 4
  | and => 0x0
  | eor => 0x1
  | sub => 0x2
  | rsb => 0x3
  | add => 0x4
  | adc => 0x5
  | sbc => 0x6
  | rsc => 0x7
  | tst => 0x8
  | teq => 0x9
  | cmp => 0xa
  | cmn => 0xb
  | orr => 0xc
  | mov => 0xd
  | bic => 0xe
  | mvn => 0xf

def Operation.control (op : Operation) (immediate setFlags : Bool) : BitVec 8 :=
  0#2 ++ ofBool immediate ++ op.code ++ ofBool setFlags

theorem Operation.pieces_control (op : Operation) (immediate setFlags : Bool) :
    (op.control immediate setFlags).extractLsb' 5 3 = (if immediate then 1 else 0) ∧
      ofCode ((op.control immediate setFlags).extractLsb' 1 4) = op ∧
        (op.control immediate setFlags).getLsbD 0 = setFlags := by
  cases op <;> cases immediate <;> cases setFlags <;> decide

/-- The control byte of a load or store: whether the offset counts before the access, whether it is
added, a bit that tells different things for different kinds, whether the base is written, and
whether it is a load. -/
def transferControl (kind : BitVec 3) (before up other write load : Bool) : BitVec 8 :=
  kind ++ ofBool before ++ ofBool up ++ ofBool other ++ ofBool write ++
    ofBool load

theorem pieces_transferControl : ∀ (kind : BitVec 3) (before up other write load : Bool),
    let control := transferControl kind before up other write load
    control.extractLsb' 5 3 = kind ∧ control.getLsbD 4 = before ∧ control.getLsbD 3 = up ∧
      control.getLsbD 2 = other ∧ control.getLsbD 1 = write ∧ control.getLsbD 0 = load := by
  decide +kernel

/-! ## Pieces of a word -/

theorem condition?_pack (c : Condition) (control : BitVec 8) (rn rd : BitVec 4)
    (low : BitVec 12) : condition? (pack c.nibble control rn rd low) = some c := by
  rw [condition?, Word.cond_pack]
  cases c <;> rfl

def shiftBits : Shift → BitVec 2
  | .lsl => 0
  | .lsr => 1
  | .asr => 2
  | .ror => 3

/-- The low bits of a register that is shifted by a constant. -/
def shiftLow (amount : BitVec 5) (shift : Shift) (rm : BitVec 4) : BitVec 12 :=
  amount ++ shiftBits shift ++ 0#1 ++ rm

theorem pieces_shiftLow (amount : BitVec 5) (shift : Shift) (rm : BitVec 4) :
    (shiftLow amount shift rm).getLsbD 4 = false ∧
      Action.shiftOf ((shiftLow amount shift rm).extractLsb' 5 2) = shift ∧
        (shiftLow amount shift rm).extractLsb' 7 5 = amount ∧
          (shiftLow amount shift rm).extractLsb' 0 4 = rm := by
  revert amount rm
  cases shift <;> decide +kernel

variable (cond rn rd : BitVec 4)

theorem decode?_pack {control : BitVec 8} :
    decode? (pack cond control rn rd low) = Action.ofPieces control rn rd low := by
  rw [decode?, Word.control_pack, Word.rn_pack, Word.rd_pack, Word.low_pack]

/-! ## Operations -/

section Compute

variable {op : Operation} {setFlags : Bool}

/-- An operation is read back from its control byte, however its operand is given. -/
theorem compute?_control (immediate : Bool) (operand : Operand) (hset : op.isComparison → setFlags)
    (hrd : op.isComparison = false → setFlags → rd.toNat ≠ Register.pc) :
    Action.compute? (op.control immediate setFlags) rn rd operand =
      some (.compute op setFlags rn.toNat rd.toNat operand) := by
  obtain ⟨-, hcode, hbit⟩ := op.pieces_control immediate setFlags
  rw [Action.compute?, hcode, hbit]
  cases hcomparison : op.isComparison with
  | true => simp [hset hcomparison]
  | false =>
    have hrd := hrd hcomparison
    cases setFlags with
    | true => simp [hrd rfl]
    | false => simp

theorem decode?_immediate {rotation : BitVec 4} {byte : BitVec 8}
    (hset : op.isComparison → setFlags)
    (hrd : op.isComparison = false → setFlags → rd.toNat ≠ Register.pc) :
    decode? (pack cond (op.control true setFlags) rn rd (rotation ++ byte)) =
      some (.compute op setFlags rn.toNat rd.toNat
        (.immediate (byte.setWidth 32) rotation.toNat)) := by
  obtain ⟨hkind, -⟩ := op.pieces_control true setFlags
  have hbyte : (rotation ++ byte).extractLsb' 0 8 = byte := extractLsb'_append_eq_right
  have hrotation : (rotation ++ byte).extractLsb' 8 4 = rotation :=
    extractLsb'_append_eq_left
  rw [decode?_pack, Action.ofPieces, hkind, hbyte, hrotation]
  exact compute?_control rn rd true _ hset hrd

theorem decode?_shifted (amount : BitVec 5) (shift : Shift) (rm : BitVec 4)
    (hset : op.isComparison → setFlags)
    (hrd : op.isComparison = false → setFlags → rd.toNat ≠ Register.pc) :
    decode? (pack cond (op.control false setFlags) rn rd (shiftLow amount shift rm)) =
      some (.compute op setFlags rn.toNat rd.toNat (.shifted rm.toNat shift amount.toNat)) := by
  obtain ⟨hkind, -⟩ := op.pieces_control false setFlags
  obtain ⟨hbit, hshift, hamount, hrm⟩ := pieces_shiftLow amount shift rm
  rw [decode?_pack, Action.ofPieces, hkind, hbit, hshift, hamount, hrm]
  exact compute?_control rn rd false _ hset hrd

end Compute

/-! ## Loads and stores -/

section Transfer

variable (up load : Bool)

theorem transfer?_control {other : Bool} {loads stores : Option Format} :
    Action.transfer? (transferControl kind true up other false load) rn rd loads stores offset =
      (if load then loads else stores).map (.transfer load · up rn.toNat rd.toNat offset) := by
  obtain ⟨-, hindex, hup, -, hwrite, hload⟩ := pieces_transferControl kind true up other false load
  rw [Action.transfer?, hindex, hup, hwrite, hload]
  rfl

theorem wordTransfer?_control {byte : Bool} :
    Action.wordTransfer? (transferControl kind true up byte false load) rn rd offset =
      some (.transfer load (if byte then .byte else .word) up rn.toNat rd.toNat offset) := by
  obtain ⟨-, -, -, hbyte, -⟩ := pieces_transferControl kind true up byte false load
  rw [Action.wordTransfer?, hbyte, transfer?_control]
  cases load <;> rfl

theorem decode?_word {byte : Bool} :
    decode? (pack cond (transferControl 0b010 true up byte false load) rn rd low) =
      some (.transfer load (if byte then .byte else .word) up rn.toNat rd.toNat
        (.constant (low.setWidth 32))) := by
  obtain ⟨hkind, -⟩ := pieces_transferControl 0b010 true up byte false load
  rw [decode?_pack, Action.ofPieces, hkind]
  exact wordTransfer?_control ..

theorem decode?_wordIndexed {byte : Bool} {amount : BitVec 5} {rm : BitVec 4} :
    decode? (pack cond (transferControl 0b011 true up byte false load) rn rd
        (shiftLow amount .lsl rm)) =
      some (.transfer load (if byte then .byte else .word) up rn.toNat rd.toNat
        (.register rm.toNat amount.toNat)) := by
  obtain ⟨hkind, -⟩ := pieces_transferControl 0b011 true up byte false load
  have hshift : ∀ (amount : BitVec 5) (rm : BitVec 4),
      (shiftLow amount .lsl rm).extractLsb' 4 3 = 0 := by
    decide +kernel
  obtain ⟨-, -, hamount, hrm⟩ := pieces_shiftLow amount .lsl rm
  rw [decode?_pack, Action.ofPieces, hkind, hshift, hamount, hrm]
  exact wordTransfer?_control ..

/-- The two bits that tell halfwords and signed bytes apart. -/
def halfCode : Format → BitVec 2
  | .signedByte => 2
  | .signedHalf => 3
  | _ => 1

/-- The low bits of a load or store of a halfword or signed byte. -/
def halfLow (high : BitVec 4) (format : Format) (low : BitVec 4) : BitVec 12 :=
  high ++ 1#1 ++ halfCode format ++ 1#1 ++ low

theorem pieces_halfLow (high : BitVec 4) (format : Format) (low : BitVec 4) :
    (halfLow high format low).getLsbD 4 = true ∧ (halfLow high format low).getLsbD 7 = true ∧
      (halfLow high format low).extractLsb' 5 2 = halfCode format ∧
        (halfLow high format low).extractLsb' 8 4 = high ∧
          (halfLow high format low).extractLsb' 0 4 = low := by
  revert high low
  cases format <;> decide +kernel

/-- A halfword or signed byte, with an offset that is a constant or in a register. Signed numbers
are stored like unsigned ones. -/
theorem decode?_half (other : Bool) (format : Format) (high low : BitVec 4)
    (h : format = .half ∨ load = true ∧ (format = .signedByte ∨ format = .signedHalf)) :
    decode? (pack cond (transferControl 0 true up other false load) rn rd
        (halfLow high format low)) =
      some (.transfer load format up rn.toNat rd.toNat
        (if other then .constant ((high ++ low).setWidth 32) else .register low.toNat 0)) := by
  obtain ⟨hkind, -, -, hother, -⟩ := pieces_transferControl 0 true up other false load
  obtain ⟨hfour, hseven, hcode, hhigh, hlow⟩ := pieces_halfLow high format low
  rw [decode?_pack, Action.ofPieces, hkind, hfour, hseven, Action.halfTransfer?, hcode, hhigh,
    hlow, hother, transfer?_control]
  rcases h with rfl | ⟨rfl, rfl | rfl⟩
  · cases load <;> rfl
  · rfl
  · rfl

theorem decode?_float {double : Bool} {words : BitVec 8} :
    decode? (pack cond (transferControl 0b110 true up false false load) rn rd
        ((if double then 0xb#4 else 0xa#4) ++ words)) =
      some (.transfer load (if double then .double else .single) up rn.toNat rd.toNat
        (.constant (words.setWidth 32 <<< 2))) := by
  obtain ⟨hkind, -, -, hother, -⟩ := pieces_transferControl 0b110 true up false false load
  rw [decode?_pack, Action.ofPieces, hkind, Action.floatTransfer?, hother,
    extractLsb'_append_eq_left, extractLsb'_append_eq_right, transfer?_control]
  cases double <;> cases load <;> rfl

end Transfer

end ArmLink.Arm
