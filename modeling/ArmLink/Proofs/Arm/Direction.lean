import ArmLink.Proofs.Arm.Transfers

/-!
# Which way an offset goes

A suffix asks for the offset of a load or store to be subtracted. In the accesses of words and bytes
it turns one bit of the last word. All the others do not look at it.
-/

namespace ArmLink.Arm

open BitVec

/-- The same suffixes, and the one that subtracts the offset. -/
def Suffixes.subtracting (suffixes : Suffixes) : Suffixes := { suffixes with subtract := true }

/-- The same instruction, with the suffix that subtracts the offset. -/
def Instruction.subtracting (i : Instruction) : Instruction :=
  { i with suffixes := i.suffixes.subtracting }

namespace Instruction

variable (i : Instruction)

@[simp] theorem subtracting_op : i.subtracting.op = i.op := rfl
@[simp] theorem subtracting_condition : i.subtracting.condition = i.condition := rfl
@[simp] theorem subtracting_suffixes : i.subtracting.suffixes = i.suffixes.subtracting := rfl
@[simp] theorem subtracting_form : i.subtracting.form = i.form := rfl

end Instruction

/-- Two codes are the same, but for the direction in the last word. -/
def Code.Turned (c e : Code) : Prop :=
  ∃ ws w, c.words = ws ++ [w] ∧ e.words = ws ++ [w ^^^ Encode.directionBit] ∧
    e.relocation = c.relocation

namespace Encode

variable {cond : Condition} {suffixes : Suffixes} {base rt : Register} {bits : Word}

/-- The other word has the direction turned. -/
def Turns (w v : Word) : Prop := v = w ^^^ directionBit

theorem Turns.xor {w v : Word} (h : Turns w v) (bits : Word) : Turns (w ^^^ bits) (v ^^^ bits) := by
  rw [Turns, h, BitVec.xor_assoc, BitVec.xor_comm directionBit, BitVec.xor_assoc]

theorem Turns.or {w v : Word} (h : Turns w v) (hbits : bits &&& directionBit = 0) :
    Turns (w ||| bits) (v ||| bits) := by
  rw [Turns, h]
  refine eq_of_getLsbD_eq fun k _ => ?_
  have hbit : (bits.getLsbD k && directionBit.getLsbD k) = false := by
    rw [← getLsbD_and, hbits]
    exact getLsbD_zero
  rw [getLsbD_or, getLsbD_xor, getLsbD_xor, getLsbD_or]
  generalize w.getLsbD k = x, bits.getLsbD k = y, directionBit.getLsbD k = z at hbit ⊢
  revert x y z
  decide

theorem turned_ofWord {w v : Word} (h : Turns w v) : Code.Turned (.ofWord w) (.ofWord v) :=
  ⟨[], w, rfl, congrArg ([·]) h, rfl⟩

theorem turned_append (c : Code) {w v : Word} (h : Turns w v) :
    Alike (· = ·) Code.Turned (c.append (.ofWord w)) (c.append (.ofWord v)) := by
  rw [Code.append_ofWord, Code.append_ofWord]
  exact .ok ⟨c.words, w, rfl, congrArg (c.words ++ [·]) h, rfl⟩

theorem alike_loadWord (suffixes' : Suffixes) (offset : Int) :
    Alike (· = ·) (fun _ _ => True) (loadWord offset base rt cond suffixes)
      (loadWord offset base rt cond suffixes') := by
  unfold loadWord
  dsimp only
  split
  · exact (Alike.refl _).bind fun _ _ _ => (Alike.refl _).bind fun _ _ _ => .ok trivial
  · exact .error rfl

variable (hadds : suffixes.subtract = false)
include hadds

theorem turns_loadWord (offset : Int) : Alike (· = ·) Turns (loadWord offset base rt cond suffixes)
      (loadWord offset base rt cond suffixes.subtracting) := by
  refine (alike_loadWord _ _).imp fun w v hw hv _ => ?_
  obtain ⟨b, t, low, rfl, rfl, hlow, rfl⟩ := loadWord_eq_ok hw
  obtain ⟨b', t', low', hb, ht, hlow', rfl⟩ := loadWord_eq_ok hv
  obtain rfl := eq_of_toNat_eq hb
  obtain rfl := eq_of_toNat_eq ht
  obtain rfl := eq_of_toNat_eq (hlow.trans hlow'.symm)
  rw [Turns, pack_directionBit, hadds]
  cases decide (0 ≤ offset) <;> rfl

theorem turned_code (hbits : bits &&& directionBit = 0) (flip : Word) (offset : Int)
    (busy : List Register) :
    Alike (· = ·) Code.Turned ((Access.word bits).code flip offset base rt busy cond suffixes)
      ((Access.word bits).code flip offset base rt busy cond suffixes.subtracting) := by
  have hkeep : mayMaterialize suffixes.subtracting = mayMaterialize suffixes := rfl
  rw [Access.code, Access.code, hkeep]
  split
  · refine Alike.bind (R := Turns) ?_ fun w v h => .ok (turned_ofWord (h.xor flip))
    exact (turns_loadWord hadds offset).bind fun w v h => .ok (h.or hbits)
  split
  · exact .error rfl
  · refine (Alike.refl _).bind fun c _ hc => ?_
    subst hc
    refine Alike.bind (R := Turns) ?_ fun w v h => turned_append c (h.xor flip)
    exact (turns_loadWord hadds _).bind fun w v h => .ok ((h.xor registerOffset).or hbits)

omit hadds

def Access.Turned (a : Access) : Prop := ∃ bits, a = .word bits ∧ bits &&& directionBit = 0

variable {i : Instruction} {a : Access}

theorem turns_indexed (hadds : i.suffixes.subtract = false) (ha : a.Turned) (base index : Register)
    (shift : Nat) (rt : Register) : Alike (· = ·) Turns (indexed i (some a) base index shift rt)
      (indexed i.subtracting (some a) base index shift rt) := by
  obtain ⟨bits, rfl, hbits⟩ := ha
  refine (Alike.refl _).bind fun offset _ hoffset => ?_
  subst hoffset
  exact (turns_loadWord hadds _).bind fun w v h => .ok ((h.xor registerOffset).or hbits)

end Encode

/-! ## All forms -/

/-- The formats that look at the suffix. -/
def Format.IsWordOrByte (format : Format) : Prop := format = .word ∨ format = .byte

/-- A load or store of a word or byte. -/
def Instruction.MovesWordOrByte (i : Instruction) : Prop :=
  ∃ t, i.transfer? = some t ∧ t.format.IsWordOrByte

/-- Two codes are turned if something is the case, and else the same. -/
structure TurnedIf (p : Prop) (x y : Except EncodeError Code) : Prop where
  turned : p → Alike (· = ·) Code.Turned x y
  same : ¬ p → y = x

namespace Instruction

open Encode

variable {i : Instruction} {format : Format} {load : Bool} {base rt : Register}

theorem turned_access (h : format.IsWordOrByte) : format.access.Turned := by
  rcases h with rfl | rfl
  · exact ⟨_, rfl, rfl⟩
  · exact ⟨_, rfl, rfl⟩

theorem access_of_not_isWordOrByte (hformat : format.isGeneral load = true)
    (h : ¬ format.IsWordOrByte) : ∃ bits, format.access = .half bits := by
  cases format with
  | word => exact absurd (.inl rfl) h
  | byte => exact absurd (.inr rfl) h
  | single => cases hformat
  | double => cases hformat
  | _ => exact ⟨_, rfl⟩

theorem turnedIf_code (hadds : i.suffixes.subtract = false) (hformat : format.isGeneral load = true)
    (flip : Word) (offset : Int) (busy : List Register) : TurnedIf format.IsWordOrByte
      (format.access.code flip offset base rt busy i.condition i.suffixes)
      (format.access.code flip offset base rt busy i.condition i.suffixes.subtracting) := by
  refine ⟨fun h => ?_, fun h => ?_⟩
  · obtain ⟨bits, haccess, hbits⟩ := turned_access h
    rw [haccess]
    exact turned_code hadds hbits flip offset busy
  · obtain ⟨bits, haccess⟩ := access_of_not_isWordOrByte hformat h
    rw [haccess]
    rfl

theorem turnedIf_indexed (hadds : i.suffixes.subtract = false)
    (hformat : format.isGeneral load = true) (index : Register) (shift : Nat) {f : Word → Word}
    (hf : ∀ w v, Turns w v → Turns (f w) (f v)) : TurnedIf format.IsWordOrByte
      (do
        let w ← indexed i (some format.access) base index shift rt
        return .ofWord (f w))
      (do
        let w ← indexed i.subtracting (some format.access) base index shift rt
        return .ofWord (f w)) := by
  refine ⟨fun h => ?_, fun h => ?_⟩
  · refine (turns_indexed hadds (turned_access h) ..).bind fun w v hw => ?_
    exact .ok (turned_ofWord (hf w v hw))
  · obtain ⟨bits, haccess⟩ := access_of_not_isWordOrByte hformat h
    rw [haccess]
    rfl

theorem turnedIf_float (hop : i.op.floatFormat? = some format) (flip : Word) (offset : Int) :
    TurnedIf format.IsWordOrByte (floatMemory i flip offset base rt)
      (floatMemory i.subtracting flip offset base rt) := by
  have hfloat := isFloat_of_floatFormat? hop
  refine ⟨?_, fun _ => rfl⟩
  rintro (rfl | rfl)
  · cases hfloat
  · cases hfloat

theorem turnedIf_transfer {format? : Option Format} {displacement : Displacement}
    {x y : Except EncodeError Code}
    (ht : i.transfer? = format?.map (⟨load, ·, rt, base, displacement⟩))
    (hnone : format? = none → y = x)
    (hsome : ∀ format, format? = some format → TurnedIf format.IsWordOrByte x y) :
    TurnedIf i.MovesWordOrByte x y := by
  cases format? with
  | none =>
    refine ⟨?_, fun _ => hnone rfl⟩
    rintro ⟨t, hmoves, -⟩
    rw [hmoves] at ht
    cases ht
  | some format =>
    have hiff : i.MovesWordOrByte ↔ format.IsWordOrByte := by
      refine ⟨?_, fun h => ⟨_, ht, h⟩⟩
      rintro ⟨t, hmoves, h⟩
      rw [hmoves] at ht
      cases ht
      exact h
    rw [hiff]
    exact hsome format rfl

theorem turnedIf_encode (hform : i.form.isTransfer = true) (hadds : i.suffixes.subtract = false)
    (pc : Nat) (labels : String → Option Nat) :
    TurnedIf i.MovesWordOrByte (encode i pc labels) (encode i.subtracting pc labels) := by
  cases hcase : i.form with
  | load offset base rd =>
    simp only [encode, Encode.form, subtracting_form, hcase, Encode.load, subtracting_op,
      loadAccess?_eq]
    refine turnedIf_transfer (by rw [transfer?, hcase]) (fun hop => ?_) fun format hop => ?_
    · rw [hop]
      rfl
    · rw [hop]
      exact turnedIf_code hadds (isGeneral_of_loadFormat? hop) ..
  | store rs offset base =>
    simp only [encode, Encode.form, subtracting_form, hcase, store, subtracting_op,
      storeAccess?_eq]
    refine turnedIf_transfer (by rw [transfer?, hcase]) (fun hop => ?_) fun format hop => ?_
    · rw [hop]
      rfl
    · rw [hop]
      exact turnedIf_code hadds (isGeneral_of_storeFormat? hop) ..
  | loadIndexed base index shift rd =>
    simp only [encode, Encode.form, subtracting_form, hcase, subtracting_op, loadAccess?_eq]
    refine turnedIf_transfer (by rw [transfer?, hcase]) (fun hop => ?_) fun format hop => ?_
    · rw [hop]
      rfl
    · rw [hop]
      exact turnedIf_indexed hadds (isGeneral_of_loadFormat? hop) index shift fun w v h => h
  | storeIndexed rs base index shift =>
    simp only [encode, Encode.form, subtracting_form, hcase, subtracting_op, storeAccess?_eq]
    refine turnedIf_transfer (by rw [transfer?, hcase]) (fun hop => ?_) fun format hop => ?_
    · rw [hop]
      rfl
    · rw [hop]
      exact turnedIf_indexed hadds (isGeneral_of_storeFormat? hop) index shift fun w v h =>
        h.xor loadBit
  | floatLoad offset base fd =>
    simp only [encode, Encode.form, subtracting_form, hcase]
    refine turnedIf_transfer (by rw [transfer?, hcase]) (fun _ => rfl) fun format hop => ?_
    exact turnedIf_float hop ..
  | floatStore fs offset base =>
    simp only [encode, Encode.form, subtracting_form, hcase]
    refine turnedIf_transfer (by rw [transfer?, hcase]) (fun _ => rfl) fun format hop => ?_
    exact turnedIf_float hop ..
  | _ =>
    rw [hcase] at hform
    cases hform

end Instruction

/-- **Direction.** With the suffix that subtracts its offset, a load or store of a word or byte has
code if and only if it has code without: the same words, but for the bit of the last one that tells
which way the offset goes. For all other loads and stores the suffix makes no difference. -/
theorem suffix_turns_direction {i : Instruction} (hform : i.form.isTransfer = true)
    (hadds : i.suffixes.subtract = false) (pc : Nat) (labels : String → Option Nat) :
    (i.MovesWordOrByte →
      Alike (· = ·) Code.Turned (encode i pc labels) (encode i.subtracting pc labels)) ∧
    (¬ i.MovesWordOrByte → encode i.subtracting pc labels = encode i pc labels) := by
  have h := Instruction.turnedIf_encode hform hadds pc labels
  exact ⟨h.turned, h.same⟩

/-- A byte is loaded from far below a register. -/
def loadBelow : Instruction := ⟨.movbu, .al, .none, .load (-0x12345678) 1 2, none⟩

/-- The offset is negative in both, and added in one and subtracted in the other. -/
theorem suffix_turns_direction_sample :
    Code.Turned ⟨[0xe59fb000, 0xea000000, 0xedcba988, 0xe7d1200b], none⟩
      ⟨[0xe59fb000, 0xea000000, 0xedcba988, 0xe751200b], none⟩ := by
  have hcode : encode loadBelow 0 (fun _ => none) =
      .ok ⟨[0xe59fb000, 0xea000000, 0xedcba988, 0xe7d1200b], none⟩ := by
    decide +kernel
  have hturned : encode loadBelow.subtracting 0 (fun _ => none) =
      .ok ⟨[0xe59fb000, 0xea000000, 0xedcba988, 0xe751200b], none⟩ := by
    decide +kernel
  have h := (suffix_turns_direction (i := loadBelow) rfl rfl 0 (fun _ => none)).1
    ⟨_, rfl, .inr rfl⟩
  rw [hcode, hturned] at h
  cases h with
  | ok h => exact h

/-- A halfword is loaded from above a register. -/
def loadHalfAbove : Instruction := ⟨.movh, .al, .none, .load 4 1 2, none⟩

/-- A floating point number is loaded from above a register. -/
def loadFloatAbove : Instruction := ⟨.movf, .al, .none, .floatLoad 4 1 2, none⟩

/-- Both are loaded from above the register, even if the suffix asks for the other direction. -/
theorem direction_not_turned : (∃ c e, encode loadHalfAbove 0 (fun _ => none) = .ok c ∧
      encode loadHalfAbove.subtracting 0 (fun _ => none) = .ok e ∧ ¬ c.Turned e) ∧
    (∃ c e, encode loadFloatAbove 0 (fun _ => none) = .ok c ∧
      encode loadFloatAbove.subtracting 0 (fun _ => none) = .ok e ∧ ¬ c.Turned e) := by
  have hself (c : Code) : ¬ c.Turned c := by
    rintro ⟨ws, w, hc, he, -⟩
    rw [hc, List.append_cancel_left_eq, List.cons.injEq] at he
    have hbit := congrArg (·.getLsbD 23) he.1
    simp [Encode.directionBit] at hbit
  refine ⟨⟨⟨[0xe1d120f4], none⟩, _, ?_, ?_, hself _⟩, ⟨⟨[0xed912a01], none⟩, _, ?_, ?_, hself _⟩⟩
  all_goals decide +kernel

end ArmLink.Arm
