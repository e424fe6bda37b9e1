import ArmLink.Proofs.Arm.Labels
import ArmLink.Proofs.Arm.Registers
import ArmLink.Proofs.Arm.TransferWords

/-!
# The code of instructions

An instruction may become several words, of which some are no instructions. All the others have the
condition of the instruction, and where a literal stands among them, a branch goes past it. At most
one of the words is patched once addresses are known: a zero that gives way to an address, or a
branch that gets its distance.
-/

namespace ArmLink

open BitVec

variable {k pc : Nat} {op : Opcode} {labels : String → Option Nat} {code c : Code}
  {cond : Condition} {w value : Word} {operation : Operation} {offset : Int}
  {rd rs rm base : Register} {a : Access} {P : Code → Prop} {i : Instruction}

/-! ## Words with a condition -/

namespace Word

open Arm (Condition)

/-- The word has the condition. -/
def Headed (cond : Condition) (w : Word) : Prop := w.extractLsb' 28 4 = cond.nibble

/-- The word leaves room for a condition. -/
def Low (w : Word) : Prop := w.extractLsb' 28 4 = 0#4

/-- The word has four bits. -/
def Narrow (w : Word) : Prop := ∃ x : BitVec 4, w = x.setWidth 32

theorem headed_field (cond : Condition) : Headed cond cond.field := by
  cases cond <;> rfl

variable {v : Word}

theorem Headed.or (hv : Headed cond v) (hw : Low w) : Headed cond (v ||| w) := by
  rw [Headed, extractLsb'_or, hv, hw, or_zero]

theorem Headed.xor (hv : Headed cond v) (hw : Low w) : Headed cond (v ^^^ w) := by
  rw [Headed, extractLsb'_xor, hv, hw, xor_zero]

theorem Low.or (hv : Low v) (hw : Low w) : Low (v ||| w) := by
  rw [Low, extractLsb'_or, hv, hw, or_zero]

theorem low_zero : Low 0 := rfl

theorem low_ite (b : Bool) {l : Nat} (hk : Low (k : Word)) (hl : Low (l : Word)) :
    Low ((if b then k else l : Nat) : Word) := by
  cases b
  · exact hl
  · exact hk

theorem low_shiftLeft {n : Nat} (x : BitVec n) (h : k + n ≤ 28) : Low (x.setWidth 32 <<< k) := by
  refine eq_of_getLsbD_eq fun i hi => ?_
  rw [getLsbD_extractLsb', getLsbD_shiftLeft, getLsbD_setWidth,
    getLsbD_of_ge x _ (by omega)]
  simp

theorem low_ofNat (h : k < 2 ^ 28) : Low (BitVec.ofNat 32 k) := by
  rw [ofNat_eq_setWidth h (by decide), ← shiftLeft_zero (setWidth 32 _)]
  exact low_shiftLeft _ (by decide)

theorem Narrow.shiftLeft (h : Narrow w) (hk : k ≤ 24) : Low (w <<< k) := by
  obtain ⟨x, rfl⟩ := h
  exact low_shiftLeft x (by omega)

theorem Narrow.low (h : Narrow w) : Low w := by
  rw [← shiftLeft_zero w]
  exact h.shiftLeft (by decide)

end Word

namespace Arm

open Word

theorem condition?_of_headed (h : Headed cond w) : condition? w = some cond := by
  rw [condition?, h]
  cases cond <;> rfl

/-- Words that all have one condition, but for literals and the branches past them. -/
inductive Guarded (cond : Condition) : List Word → Prop
  | nil : Guarded cond []
  | word {w : Word} {rest : List Word} (hw : Headed cond w) (hrest : Guarded cond rest) :
      Guarded cond (w :: rest)
  | literal {w value : Word} {rest : List Word} (hw : Headed cond w) (hrest : Guarded cond rest) :
      Guarded cond (w :: Encode.skipLiteral :: value :: rest)

theorem Guarded.append {ws vs : List Word} (hws : Guarded cond ws) (hvs : Guarded cond vs) :
    Guarded cond (ws ++ vs) := by
  induction hws with
  | nil => exact hvs
  | word hw _ ih => exact .word hw ih
  | literal hw _ ih => exact .literal hw ih

/-! ## Code -/

/-- The relocation is about the word `w`, of which `k` others stand in front. -/
inductive Patches (w : Word) (k : Nat) : Relocation String → Prop
  | literal {kind : Relocation.Kind} (hkind : kind = .absolute ∨ kind = .tls) (hw : w = 0)
      (name : String) (addend : Word64) :
      Patches w k (.pending (4 * k) 4 kind (some name) addend)
  | branch {insn : Word} (h : insn.topByte = w.topByte) (name : String) :
      Patches w k (.pending (4 * k) 4 .call (some name) (insn.setWidth 64))

namespace Code

/-- There are at most `n` words and at least one, and a patch is about one of them. -/
structure Neat (n : Nat) (c : Code) : Prop where
  pos : 0 < c.words.length
  length_le : c.words.length ≤ n
  patch : ∀ r ∈ c.relocation, ∃ k w, c.words[k]? = some w ∧ Patches w k r

/-- The code is neat, and its words are guarded. -/
structure WellMade (n : Nat) (cond : Condition) (c : Code) : Prop extends c.Neat n where
  words : Guarded cond c.words

variable {n : Nat}

theorem neat_ofWord (n : Nat) (w : Word) : (ofWord w).Neat (n + 1) :=
  ⟨Nat.one_pos, Nat.le_add_left 1 n, nofun⟩

theorem wellMade_ofWord (h : Headed cond w) : (ofWord w).WellMade (n + 1) cond :=
  ⟨neat_ofWord n w, .word h .nil⟩

theorem WellMade.snoc (h : c.WellMade n cond) (hw : Headed cond w) :
    WellMade (n + 1) cond ⟨c.words ++ [w], c.relocation⟩ := by
  refine ⟨⟨?_, ?_, fun r hr => ?_⟩, h.words.append (.word hw .nil)⟩
  · simp
  · simpa using h.length_le
  · obtain ⟨k, v, hv, hpatch⟩ := h.patch r hr
    obtain ⟨hk, -⟩ := List.getElem?_eq_some_iff.mp hv
    exact ⟨k, v, by rw [List.getElem?_append_left hk, hv], hpatch⟩

end Code

/-! ## Data -/

namespace Encode

/-- Whatever comes of it has the property, and it does not fail for a second patch. -/
abbrev Makes {α : Type} (P : α → Prop) (x : Except EncodeError α) : Prop :=
  Gives (· ≠ .secondRelocation) P x

/-- Whatever code comes of it is well made. -/
abbrev Guards (n : Nat) (cond : Condition) (x : Except EncodeError Code) : Prop :=
  Makes (Code.WellMade n cond) x

/-- Whatever word comes of it has the condition. -/
abbrev Heads (cond : Condition) (x : Except EncodeError Word) : Prop := Makes (Headed cond) x

variable {n : Nat}

theorem guards_word (h : Headed cond w) : Guards (n + 1) cond (pure (.ofWord w)) :=
  gives_pure (Code.wellMade_ofWord h)

theorem guards_append (hc : c.WellMade n cond) (hw : Headed cond w) :
    Guards (n + 1) cond (c.append (.ofWord w)) := by
  rw [Code.append_ofWord]
  exact gives_pure (hc.snoc hw)

/-- What fails only for lack of a register does not fail for a second patch. -/
theorem Needs.makes {α : Type} {P : α → Prop} {rs : List Register} {x : Except EncodeError α}
    (h : Needs rs x) (hP : ∀ a, x = .ok a → P a) : Makes P x := by
  refine ⟨fun he => ?_, fun {a} => hP a⟩
  obtain ⟨r, -, rfl, -⟩ := h.of_error he
  nofun

theorem narrow_register (r : Register) : Makes Narrow (register r) :=
  (needs_register (List.mem_singleton_self r)).makes fun _ h =>
    (register_eq_ok h).imp fun _ => And.right

theorem makes_constant (value : Int) : Makes (fun _ => True) (constant value) := by
  unfold constant
  split
  · exact gives_pure trivial
  · exact gives_error nofun

theorem low_operandRegisters (op : Opcode) (rn : Option Register) (rd : Register) :
    Makes Low (operandRegisters op rn rd) := by
  refine needs_operandRegisters.makes fun _ h => ?_
  obtain ⟨x, y, rfl, -⟩ := operandRegisters_eq_ok h
  exact cond_pack ..

theorem low_immediate {field : Word} (h : Immediate.encode? value = some field) : Low field := by
  obtain ⟨rotation, byte, rfl, -⟩ := Immediate.encode?_eq_some h
  exact cond_pack ..

theorem low_scratchField : Low scratchField := rfl

theorem low_shiftedRegister (rm : Register) (shift : Shift) (amount : ShiftAmount) :
    Makes Low (shiftedRegister rm shift amount) := by
  have hcode : Low (shiftCode shift <<< 5) := by
    cases shift <;> rfl
  refine (narrow_register rm).bind fun m hm => ?_
  have hbase := hm.low.or hcode
  cases amount with
  | constant n =>
    dsimp only
    split
    · rename_i hlt
      rw [ofNat_eq_setWidth (n := 5) hlt (by decide)]
      exact gives_pure (hbase.or (low_shiftLeft _ (by decide)))
    · exact gives_error nofun
  | register rs =>
    refine (narrow_register rs).bind fun s hs => gives_pure ?_
    exact (hbase.or (hs.shiftLeft (by decide))).or rfl

variable (cond : Condition) (suffixes : Suffixes)

theorem headed_withCondition {operation : Word} (h : Low operation) :
    Headed cond (withCondition operation cond suffixes) :=
  ((headed_field cond).or h).or (low_ite _ rfl rfl)

theorem headed_dataProcessing? (h : dataProcessing? op cond suffixes = some w) : Headed cond w := by
  obtain ⟨operation, hop, rfl⟩ := Option.map_eq_some_iff.mp h
  apply headed_withCondition
  cases op <;> cases hop <;> rfl

theorem headed_dataProcessing (hop : op.operation? = some operation) :
    Headed cond (dataProcessing op cond suffixes) := by
  rw [dataProcessing_eq hop]
  exact cond_pack ..

theorem heads_loadWord {rt : Register} : Heads cond (loadWord offset base rt cond suffixes) := by
  by_cases hlt : offset.natAbs < 0x1000
  · refine (needs_loadWord hlt).makes fun _ h => ?_
    obtain ⟨b, t, low, -, -, -, rfl⟩ := loadWord_eq_ok h
    exact cond_pack ..
  · unfold loadWord
    rw [if_neg hlt]
    exact gives_error nofun

theorem guards_loadLiteral : Guards (n + 3) cond (loadLiteral cond rd value) :=
  (heads_loadWord ..).bind fun _ hw =>
    gives_pure ⟨⟨Nat.zero_lt_succ _, Nat.le_add_left 3 n, nofun⟩, .literal hw .nil⟩

theorem guards_loadPatched (rd : Register) {kind : Relocation.Kind}
    (hkind : kind = .absolute ∨ kind = .tls) (symbol : String) (addend : Int) :
    Guards (n + 3) cond (loadPatched cond rd kind symbol addend) := by
  refine Gives.bind (P := fun code => ∃ w, Headed cond w ∧ code = ⟨[w, skipLiteral, 0], none⟩)
    ((heads_loadWord ..).bind fun w hw => gives_pure ⟨w, hw, rfl⟩) ?_
  rintro _ ⟨w, hw, rfl⟩
  refine gives_pure ⟨⟨Nat.zero_lt_succ _, Nat.le_add_left 3 n, ?_⟩, .literal hw .nil⟩
  rintro _ ⟨⟩
  exact ⟨2, 0, rfl, .literal hkind rfl symbol _⟩

/-- A constant becomes one word, or a literal that is loaded. -/
theorem guards_materialize (rd : Register) (value : Word) :
    Guards (n + 3) cond (materialize cond rd value) := by
  refine (narrow_register rd).bind fun d hd => ?_
  dsimp only
  split
  · rename_i field hfield
    refine guards_word (.or (.or ?_ (low_immediate hfield)) (hd.shiftLeft (by decide)))
    exact headed_dataProcessing cond .none rfl
  · rename_i field _ hfield
    refine guards_word (.or (.or ?_ (low_immediate hfield)) (hd.shiftLeft (by decide)))
    exact headed_dataProcessing cond .none rfl
  · exact guards_loadLiteral ..

theorem operation?_of_partner? {other : Opcode} {v : Word}
    (h : partner? op value = some (other, v)) : ∃ operation, other.operation? = some operation := by
  cases op <;> cases h <;> exact ⟨_, rfl⟩

theorem guards_dataImmediate (hop : op.operation? = some operation) (value : Word)
    (rn : Option Register) (rd : Register) :
    Guards (n + 4) cond (dataImmediate op cond suffixes value rn rd) := by
  have himmediate {op : Opcode} {operation : Operation} (hop : op.operation? = some operation)
      {value field : Word} (hfield : Immediate.encode? value = some field) :
      Guards (n + 4) cond (do return .ofWord (dataProcessing op cond suffixes ||| field
        ||| (← operandRegisters op rn rd))) := by
    refine (low_operandRegisters op rn rd).bind fun registers hregisters => guards_word ?_
    exact ((headed_dataProcessing cond suffixes hop).or (low_immediate hfield)).or hregisters
  have hscratch {op : Opcode} {operation : Operation} (hop : op.operation? = some operation)
      (op' : Opcode) (value : Word) : Guards (n + 4) cond (do
        let code ← materialize cond .scratch value
        code.append (.ofWord (dataProcessing op cond suffixes ||| scratchField
          ||| (← operandRegisters op' rn rd)))) := by
    refine (guards_materialize (n := n) ..).bind fun code hcode =>
      (low_operandRegisters op' rn rd).bind fun registers hregisters => ?_
    refine guards_append hcode ?_
    exact ((headed_dataProcessing cond suffixes hop).or low_scratchField).or hregisters
  unfold dataImmediate
  split
  · rename_i field hfield
    exact himmediate hop hfield
  split
  · rename_i other field hother
    obtain ⟨⟨_, v⟩, hpartner, hother⟩ := Option.bind_eq_some_iff.mp hother
    obtain ⟨_, hfield, hother⟩ := Option.map_eq_some_iff.mp hother
    cases hother
    obtain ⟨operation', hop'⟩ := operation?_of_partner? hpartner
    exact himmediate hop' hfield
  split
  · dsimp only
    split
    · exact hscratch rfl ..
    · exact guards_loadLiteral ..
  · split
    · exact gives_error nofun
    · exact hscratch hop ..

/-! ## Memory -/

theorem low_loadBit : Low loadBit := rfl

theorem low_registerOffset : Low registerOffset := rfl

/-- The bits that an access sets or flips. -/
def Access.bits : Access → Word
  | word bits => bits
  | half bits => bits

theorem low_loadAccess? (h : loadAccess? op = some a) : Low a.bits := by
  cases op <;> cases h <;> rfl

theorem low_storeAccess? (h : storeAccess? op = some a) : Low a.bits := by
  cases op <;> cases h <;> rfl

section Memory

variable (offset : Int) (base rt : Register)

theorem heads_loadHalfRegister {index : Register} :
    Heads cond (loadHalfRegister index base rt cond suffixes) := by
  refine needs_loadHalfRegister.makes fun _ h => ?_
  obtain ⟨b, t, x, -, -, -, rfl⟩ := loadHalfRegister_eq_ok h
  exact cond_pack ..

theorem heads_loadHalf : Heads cond (loadHalf offset base rt cond suffixes) := by
  by_cases hlt : offset.natAbs < 0x100
  · refine (needs_loadHalf hlt).makes fun _ h => ?_
    obtain ⟨b, t, high, low, -, -, -, rfl⟩ := loadHalf_eq_ok h
    exact cond_pack ..
  · refine (heads_loadHalfRegister ..).bind fun w hw => ?_
    dsimp only
    rw [if_neg hlt]
    exact gives_error nofun

variable (a : Access) (ha : Low a.bits)

include ha

theorem heads_direct : Heads cond (a.direct offset base rt cond suffixes) := by
  cases a with
  | word bits => exact (heads_loadWord ..).bind fun w hw => gives_pure (hw.or ha)
  | half bits => exact (heads_loadHalf ..).bind fun w hw => gives_pure (hw.xor ha)

theorem heads_viaScratch : Heads cond (a.viaScratch base rt cond suffixes) := by
  cases a with
  | word bits =>
    exact (heads_loadWord ..).bind fun w hw => gives_pure ((hw.xor low_registerOffset).or ha)
  | half bits => exact (heads_loadHalfRegister ..).bind fun w hw => gives_pure (hw.xor ha)

/-- An access is one word, or its offset is put into the scratch register first. -/
theorem guards_access {flip : Word} (hflip : Low flip) (busy : List Register) :
    Guards (n + 4) cond (a.code flip offset base rt busy cond suffixes) := by
  refine .ite (fun _ => ?_) fun _ => .ite (fun _ => gives_error nofun) fun _ => ?_
  · exact (heads_direct _ _ _ _ _ a ha).bind fun w hw => guards_word (hw.xor hflip)
  · refine (guards_materialize (n := n) ..).bind fun code hcode => ?_
    refine (heads_viaScratch _ _ _ _ a ha).bind fun w hw => ?_
    exact guards_append hcode (hw.xor hflip)

theorem makes_access_zero {flip : Word} (hflip : Low flip) (busy : List Register) :
    Makes (fun c => ∃ w, Headed cond w ∧ c = .ofWord w)
      (a.code flip 0 base rt busy cond suffixes) := by
  have hnear : (0 : Int).natAbs < a.span := by
    cases a <;> exact Nat.zero_lt_succ _
  refine .ite (fun _ => ?_) fun hfar => absurd hnear (by simp_all)
  exact (heads_direct _ _ _ _ _ a ha).bind fun w hw => gives_pure ⟨_, hw.xor hflip, rfl⟩

omit ha

theorem heads_floatWord {double : Bool} :
    Heads cond (floatWord double offset base rt cond suffixes) := by
  refine needs_floatWord.makes fun _ h => ?_
  obtain ⟨b, t, words, -, -, -, rfl⟩ := floatWord_eq_ok h
  exact cond_pack ..

end Memory

section Form

variable (i : Instruction)

theorem makes_load (h : ∀ a : Access, Low a.bits →
      Makes P (a.code 0 offset base rd [base] i.condition i.suffixes)) :
    Makes P (load i offset base rd) := by
  unfold load
  split
  · rename_i a ha
    exact h a (low_loadAccess? ha)
  · exact gives_error nofun

theorem makes_store (h : ∀ a : Access, Low a.bits →
      Makes P (a.code loadBit offset base rs [base, rs] i.condition i.suffixes)) :
    Makes P (store i rs offset base) := by
  unfold store
  split
  · rename_i a ha
    exact h a (low_storeAccess? ha)
  · exact gives_error nofun

theorem heads_indexed {access? : Option Access} (h : ∀ a, access? = some a → Low a.bits)
    (base index : Register) (shift : Nat) (rt : Register) :
    Heads i.condition (indexed i access? base index shift rt) := by
  unfold indexed
  split
  · rename_i bits
    have hbits : Low bits := h (.word bits) rfl
    refine (low_shiftedRegister ..).bind fun offset _ => (heads_loadWord ..).bind fun w hw =>
      gives_pure ?_
    exact (hw.xor low_registerOffset).or hbits
  · rename_i bits
    have hbits : Low bits := h (.half bits) rfl
    split
    · exact (heads_loadHalfRegister ..).bind fun w hw => gives_pure (hw.xor hbits)
    · exact gives_error nofun
  · exact gives_error nofun

theorem guards_floatMemory {flip : Word} (hflip : Low flip) (offset : Int) (base fd : Register) :
    Guards (n + 5) i.condition (floatMemory i flip offset base fd) := by
  unfold floatMemory
  dsimp only
  split
  · exact gives_error nofun
  split
  · exact gives_error nofun
  split
  · exact (heads_floatWord ..).bind fun w hw => guards_word (hw.xor hflip)
  split
  · exact gives_error nofun
  split
  · exact gives_error nofun
  refine (guards_materialize (n := n) ..).bind fun constant hconstant =>
    (narrow_register base).bind fun b hb => ?_
  have hadd : Headed i.condition (dataProcessing .add i.condition .none ||| scratchField
      ||| (b <<< 16) ||| (scratchField <<< 12)) := by
    refine .or (.or (.or ?_ low_scratchField) (hb.shiftLeft (by decide))) rfl
    exact headed_dataProcessing _ _ rfl
  refine (guards_append hconstant hadd).bind fun sum hsum => ?_
  refine (heads_floatWord ..).bind fun w hw => ?_
  exact guards_append hsum (hw.xor hflip)

/-! ## All forms -/

theorem headed_branchWord : Heads i.guard (branchWord i.op i.condition i.suffixes) := by
  have hmakes : Makes (fun _ => True) (branchWord i.op i.condition i.suffixes) := by
    unfold branchWord
    split
    · exact gives_error nofun
    · refine .ite (fun _ => gives_error nofun) fun _ =>
        .ite (fun _ => gives_pure trivial) fun _ => ?_
      exact .ite (fun _ => gives_pure trivial) fun _ => gives_error nofun
  refine ⟨hmakes.of_error, fun h => ?_⟩
  rw [branchWord_eq_ok h, linkBit]
  refine .or ((headed_field _).or rfl) ?_
  split <;> rfl

theorem headed_withDistance (h : Headed cond w) (words : Word) :
    Headed cond (Branch.withDistance w words) := by
  rw [Headed, ← h]
  refine eq_of_getLsbD_eq fun k _ => ?_
  rw [getLsbD_extractLsb', getLsbD_extractLsb', Branch.withDistance,
    Word.getLsbD_withField, if_neg (by omega)]

theorem guards_branch (target : BranchTarget) (pc : Nat) (labels : String → Option Nat) :
    Guards (n + 1) i.guard (branch i target pc labels) := by
  refine (headed_branchWord i).bind fun word hword => ?_
  cases target with
  | label name =>
    dsimp only
    split
    · exact gives_error nofun
    · split
      · exact guards_word (headed_withDistance _ hword _)
      · exact gives_error nofun
  | symbol name offset =>
    refine gives_pure ⟨⟨Nat.one_pos, Nat.le_add_left 1 n, ?_⟩, .word hword .nil⟩
    rintro _ ⟨⟩
    exact ⟨0, word, rfl, .branch (Branch.topByte_withDistance ..) name⟩

theorem guards_branchRegister : Guards (n + 1) i.condition (branchRegister i rm) := by
  unfold branchRegister
  split
  · refine (narrow_register rm).bind fun m hm => guards_word ?_
    refine .or (.or (.or (.or (headed_field _) ?_) ?_) (hm.shiftLeft (by decide))) ?_
    all_goals rfl
  · refine (narrow_register rm).bind fun m hm => guards_word ?_
    exact .or (.or (headed_field _) rfl) hm.low
  · exact gives_error nofun

theorem heads_shiftMove {shift : Shift} {amount : ShiftAmount} :
    Heads i.condition (shiftMove i rm shift amount rd) := by
  have hmove : Headed i.condition (moveBase i.condition i.suffixes) :=
    headed_withCondition _ _ rfl
  refine (low_shiftedRegister rm shift amount).bind fun operand hoperand =>
    (narrow_register rd).bind fun d hd => gives_pure ?_
  exact .or (.or hmove hoperand) (hd.shiftLeft (by decide))

theorem guards_extend : Guards (n + 2) i.condition (extend i rm rd) := by
  unfold extend
  dsimp only
  split
  · exact gives_error nofun
  · refine (heads_shiftMove ..).bind fun left hleft => ?_
    exact (heads_shiftMove ..).bind fun right hright =>
      gives_pure ⟨⟨Nat.two_pos, Nat.le_add_left 2 n, nofun⟩, .word hleft (.word hright .nil)⟩

theorem headed_multiply? (h : multiply? op cond suffixes = some w) : Headed cond w := by
  obtain ⟨bits, hop, rfl⟩ := Option.map_eq_some_iff.mp h
  apply headed_withCondition
  cases op <;> cases hop <;> rfl

theorem guards_multiply {ra : Option Register} :
    Guards (n + 1) i.condition (multiply i rm rs rd ra) := by
  unfold multiply
  dsimp only
  split
  · exact gives_error nofun
  · rename_i base hbase
    have hhead : Headed i.condition base := by
      split at hbase
      · exact headed_multiply? _ _ hbase
      · exact headed_multiply? _ _ hbase
      · cases hbase
    have hproduct {a : Word} (ha : Low a) (rm rs : Register) : Guards (n + 1) i.condition (do
        let rd ← register rd
        let rs ← register rs
        let rm ← register rm
        return .ofWord (base ||| (rd <<< 16) ||| a ||| (rs <<< 8) ||| rm)) := by
      refine (narrow_register rd).bind fun d hd => (narrow_register rs).bind fun s hs =>
        (narrow_register rm).bind fun m hm => guards_word ?_
      exact .or (.or (.or (.or hhead (hd.shiftLeft (by decide))) ha) (hs.shiftLeft (by decide)))
        hm.low
    split
    · exact (narrow_register _).bind fun a ha => hproduct (ha.shiftLeft (by decide)) _ _
    · exact hproduct low_zero _ _

theorem guards_multiplyLong {rdHi rdLo : Register} :
    Guards (n + 1) i.condition (multiplyLong i rm rs rdHi rdLo) := by
  unfold multiplyLong
  dsimp only
  split
  · exact gives_error nofun
  · rename_i base hbase
    have hhead : Headed i.condition base := by
      split at hbase
      any_goals exact headed_multiply? _ _ hbase
      cases hbase
    refine (narrow_register rdHi).bind fun h hh => (narrow_register rdLo).bind fun l hl =>
      (narrow_register rs).bind fun s hs => (narrow_register rm).bind fun m hm => guards_word ?_
    exact .or (.or (.or (.or hhead (hh.shiftLeft (by decide))) (hl.shiftLeft (by decide)))
      (hs.shiftLeft (by decide))) hm.low

theorem headed_floatOpcode? (h : floatOpcode? op cond = some w) : Headed cond w := by
  obtain ⟨bits, hop, rfl⟩ := Option.map_eq_some_iff.mp h
  have hbits : Low bits := by
    cases op <;> cases hop <;> rfl
  refine .or (.or (.or (headed_field cond) rfl) hbits) ?_
  split <;> rfl

theorem guards_floatArith {fm : Register} {fn : Option Register} {fd : Register} :
    Guards (n + 2) i.condition (floatArith i fm fn fd) := by
  unfold floatArith
  split
  · exact gives_error nofun
  · rename_i base hbase
    have hhead := headed_floatOpcode? _ hbase
    split
    · refine (narrow_register _).bind fun other hother => (narrow_register _).bind fun m hm => ?_
      refine gives_pure ⟨⟨Nat.two_pos, Nat.le_add_left 2 n, nofun⟩,
        .word ?_ (.word ((headed_field _).or rfl) .nil)⟩
      exact .or (.or hhead (hother.shiftLeft (by decide))) hm.low
    · have hlast {first : Word} (hfirst : Low (first <<< 16)) : Guards (n + 2) i.condition (do
          let fm ← register fm
          let fd ← register fd
          return .ofWord (base ||| fm ||| (first <<< 16) ||| (fd <<< 12))) := by
        refine (narrow_register fm).bind fun m hm => (narrow_register fd).bind fun d hd =>
          guards_word ?_
        exact .or (.or (.or hhead hm.low) hfirst) (hd.shiftLeft (by decide))
      dsimp only
      split
      · have hzero : Makes (fun w : Word => Low (w <<< 16)) (pure 0) := gives_pure rfl
        exact hzero.bind fun _ hfirst => hlast hfirst
      · exact (narrow_register _).bind fun first hfirst => hlast (hfirst.shiftLeft (by decide))

theorem operation?_of_dataOpcode? (h : dataOpcode? op = some w) :
    ∃ operation, op.operation? = some operation := by
  cases op <;> cases h <;> exact ⟨_, rfl⟩

/-- The code of every instruction but branches is guarded by the stated condition. A word on its own
is no instruction. -/
theorem guards_form (hbranch : ∀ target, i.form ≠ .branch target)
    (hword : ∀ value symbol, i.form ≠ .word value symbol) (pc : Nat)
    (labels : String → Option Nat) : Guards 5 i.condition (form i pc labels) := by
  unfold form
  cases hform : i.form with
  | registers rm rn rd =>
    dsimp only
    split
    · exact gives_error nofun
    · rename_i base hbase
      refine (narrow_register rm).bind fun m hm => ?_
      refine (low_operandRegisters _ rn rd).bind fun registers hregisters => guards_word ?_
      exact .or (.or (headed_dataProcessing? _ _ hbase) hm.low) hregisters
  | immediate value rn rd =>
    dsimp only
    split
    · exact gives_error nofun
    · rename_i hop
      obtain ⟨operation, hop⟩ := operation?_of_dataOpcode? hop
      exact (makes_constant value).bind fun v _ => guards_dataImmediate _ _ hop ..
  | shiftedRegister rm shift amount rn rd =>
    dsimp only
    split
    · exact gives_error nofun
    · rename_i base hbase
      refine (low_shiftedRegister rm shift amount).bind fun operand hoperand => ?_
      refine (low_operandRegisters _ rn rd).bind fun registers hregisters => guards_word ?_
      exact .or (.or (headed_dataProcessing? _ _ hbase) hoperand) hregisters
  | addressOf offset base rd =>
    exact .ite (fun _ => guards_dataImmediate _ _ rfl ..) fun _ => gives_error nofun
  | branch target => exact absurd hform (hbranch target)
  | branchRegister rm => exact guards_branchRegister ..
  | shift amount rm rd =>
    have hmove (shift : Shift) :
        Guards 5 i.condition (do return .ofWord (← shiftMove i rm shift amount rd)) :=
      (heads_shiftMove ..).bind fun w hw => guards_word hw
    dsimp only
    split
    · exact hmove .lsl
    · exact hmove .lsr
    · exact hmove .asr
    · exact gives_error nofun
  | softwareInterrupt value =>
    refine .ite (fun _ => gives_error nofun) fun _ => .ite (fun hlt => guards_word ?_) fun _ =>
      gives_error nofun
    exact .or (.or (headed_field _) rfl) (low_ofNat (Nat.lt_trans hlt (by decide)))
  | word value symbol => exact absurd hform (hword value symbol)
  | loadConstant value symbol rd =>
    refine .ite (fun _ => gives_error nofun) fun hop => ?_
    cases symbol with
    | some name => exact guards_loadPatched _ _ (.inl rfl) ..
    | none =>
      rw [not_not.mp hop]
      exact (makes_constant value).bind fun v _ => guards_dataImmediate _ _ rfl ..
  | extend rm rd => exact guards_extend ..
  | multiply rm rs rd ra => exact guards_multiply ..
  | multiplyLong rm rs rdHi rdLo => exact guards_multiplyLong ..
  | load offset base rd =>
    exact makes_load i fun a ha => guards_access _ _ _ _ _ a ha low_zero _
  | store rs offset base =>
    exact makes_store i fun a ha => guards_access _ _ _ _ _ a ha low_loadBit _
  | loadIndexed base index shift rd =>
    exact (heads_indexed i (fun _ => low_loadAccess?) ..).bind fun w hw => guards_word hw
  | storeIndexed rs base index shift =>
    exact (heads_indexed i (fun _ => low_storeAccess?) ..).bind fun w hw =>
      guards_word (hw.xor low_loadBit)
  | loadSymbol symbol offset rd =>
    refine .ite (fun _ => ?_) fun _ => gives_error nofun
    refine (guards_loadPatched (n := 1) _ _ (.inl rfl) ..).bind fun address haddress => ?_
    refine (makes_load i fun a ha => makes_access_zero _ _ _ _ a ha low_zero _).bind ?_
    rintro _ ⟨w, hw, rfl⟩
    exact guards_append haddress hw
  | storeSymbol rs symbol offset =>
    refine .ite (fun _ => gives_error nofun) fun _ => .ite (fun _ => gives_error nofun) fun _ => ?_
    refine (guards_loadPatched (n := 1) _ _ (.inl rfl) ..).bind fun address haddress => ?_
    refine (makes_store i fun a ha => makes_access_zero _ _ _ _ a ha low_loadBit _).bind ?_
    rintro _ ⟨w, hw, rfl⟩
    exact guards_append haddress hw
  | floatLoad offset base fd => exact guards_floatMemory i low_zero ..
  | floatStore fs offset base => exact guards_floatMemory i low_loadBit ..
  | floatArith fm fn fd => exact guards_floatArith ..
  | countLeadingZeros rm rd =>
    refine .ite (fun _ => ?_) fun _ => gives_error nofun
    refine (narrow_register rm).bind fun m hm =>
      (narrow_register rd).bind fun d hd => guards_word ?_
    exact .or (.or (.or (.or (headed_field _) rfl) rfl) hm.low) (hd.shiftLeft (by decide))
  | tlsOffset symbol rd =>
    exact .ite (fun _ => guards_loadPatched _ _ (.inr rfl) ..) fun _ => gives_error nofun

theorem neat_word {i : Instruction} {value : Int} {symbol : Option String}
    (hform : i.form = .word value symbol) (pc : Nat) (labels : String → Option Nat) :
    Makes (Code.Neat (n + 1)) (form i pc labels) := by
  unfold form
  rw [hform]
  refine .ite (fun _ => gives_error nofun) fun _ => ?_
  cases symbol with
  | none => exact (makes_constant value).bind fun v _ => gives_pure (Code.neat_ofWord n v)
  | some name =>
    refine gives_pure ⟨Nat.one_pos, Nat.le_add_left 1 n, ?_⟩
    rintro _ ⟨⟩
    exact ⟨0, 0, rfl, .literal (.inl rfl) rfl name _⟩

end Form

/-- A branch with a condition in its name has no other form. -/
theorem form_of_conditional {implied : Condition} (himplied : i.op.branchCondition? = some implied)
    (hne : implied ≠ .al) (hform : ∀ target, i.form ≠ .branch target) (pc : Nat)
    (labels : String → Option Nat) : ∃ e, form i pc labels = .error e := by
  obtain ⟨op, condition, suffixes, operands, label⟩ := i
  cases op <;> cases himplied <;> try exact absurd rfl hne
  all_goals
    cases operands with
    | branch target => exact absurd rfl (hform target)
    | _ => exact ⟨_, rfl⟩

theorem guard_of_form (h : form i pc labels = .ok code)
    (hform : ∀ target, i.form ≠ .branch target) : i.guard = i.condition := by
  unfold Instruction.guard
  split
  · rename_i implied himplied
    by_cases hal : implied = .al
    · exact if_pos hal
    · obtain ⟨e, he⟩ := form_of_conditional himplied hal hform pc labels
      rw [he] at h
      cases h
  · rfl

end Encode

/-- **Guarded.** The code of an instruction is guarded by its condition. -/
theorem wellMade_of_encode (h : encode i pc labels = .ok code)
    (hword : ∀ value symbol, i.form ≠ .word value symbol) : code.WellMade 5 i.guard := by
  by_cases hbranch : ∃ target, i.form = .branch target
  · obtain ⟨target, htarget⟩ := hbranch
    simp only [encode, Encode.form, htarget] at h
    exact (Encode.guards_branch i target pc labels).of_ok h
  · have hform := not_exists.mp hbranch
    rw [Encode.guard_of_form h hform]
    exact (Encode.guards_form i hform hword pc labels).of_ok h

/-- **Neat.** An instruction becomes a few words, of which at most one is patched. -/
theorem neat_encode (i : Instruction) (pc : Nat) (labels : String → Option Nat) :
    Encode.Makes (Code.Neat 5) (encode i pc labels) := by
  by_cases hword : ∃ value symbol, i.form = .word value symbol
  · obtain ⟨value, symbol, hform⟩ := hword
    exact Encode.neat_word hform pc labels
  by_cases hbranch : ∃ target, i.form = .branch target
  · obtain ⟨target, htarget⟩ := hbranch
    simp only [encode, Encode.form, htarget]
    exact (Encode.guards_branch i target pc labels).mono fun _ h => h.toNeat
  · exact (Encode.guards_form i (not_exists.mp hbranch)
      (fun value symbol hform => hword ⟨value, symbol, hform⟩) pc labels).mono fun _ h => h.toNeat

end Arm

end ArmLink
