import ArmLink.Arm.Assemble
import ArmLink.Proofs.Arm.SymbolBranch
import ArmLink.Proofs.Bytes
import Mathlib.Algebra.GroupWithZero.Nat

/-!
# Branches to labels

A body is assembled in two passes. The first one learns where every instruction goes while it does
not know yet where the labels are, so everything hangs on sizes: what an instruction becomes may
depend on addresses, but how long it is does not.
-/

namespace ArmLink.Arm

open List
open Branch (InReach displacement readAhead)

variable {name : String} {pc k : Nat} {labels table : Labels} {code : Code} {e : AssembleError}
  {placed : List Placed} {codes : List Code} {reason : EncodeError} {word : Word} {body : Body}
  {i : Instruction}

/-! ## Branches -/

/-- The condition under which an instruction takes effect: the one in the name of a branch if there
is one, and the stated one otherwise. -/
def Instruction.guard (i : Instruction) : Condition :=
  match i.op.branchCondition? with
  | some implied => if implied = .al then i.condition else implied
  | none => i.condition

/-- The bit that tells calls from other branches. -/
def Encode.linkBit (op : Opcode) : Word := if op = .bl then 1 <<< 24 else 0

theorem Encode.branchWord_eq_ok (h : branchWord i.op i.condition i.suffixes = .ok word) :
    word = i.guard.field ||| (0x5 <<< 25) ||| linkBit i.op := by
  unfold branchWord at h
  unfold Instruction.guard
  split at h
  · cases h
  · rename_i implied himplied
    rw [himplied]
    dsimp only at h ⊢
    split at h
    · cases h
    · split at h
      · rename_i hal
        cases h
        rw [if_pos hal]
        rfl
      · rename_i hal
        rw [if_neg hal]
        split at h
        · cases h
          rfl
        · cases h

theorem Branch.field_withDistance (w words : Word) {lo : Nat} (hi : Nat) (h : 24 ≤ lo) :
    (withDistance w words).field lo hi = w.field lo hi := by
  refine BitVec.eq_of_getLsbD_eq fun i _ => ?_
  rw [Word.field, Word.field, BitVec.getLsbD_ushiftRight, BitVec.getLsbD_ushiftRight,
    BitVec.getLsbD_and, BitVec.getLsbD_and, withDistance, Word.getLsbD_withField, if_neg (by omega)]

theorem Encode.fields_of_branchWord (words : Word)
    (h : branchWord i.op i.condition i.suffixes = .ok word) :
    (Branch.withDistance word words).field 28 32 = i.guard.code ∧
      Branch.isLink (Branch.withDistance word words) = decide (i.op = .bl) := by
  rw [Branch.isLink, Word.bit, Branch.field_withDistance _ _ _ (by decide),
    Branch.field_withDistance _ _ _ (by decide), Branch.field_withDistance _ _ _ (by decide),
    branchWord_eq_ok h, linkBit]
  generalize i.guard = cond
  by_cases hlink : i.op = .bl
  · rw [if_pos hlink, decide_eq_true hlink]
    cases cond <;> exact ⟨rfl, rfl⟩
  · rw [if_neg hlink, decide_eq_false hlink]
    cases cond <;> exact ⟨rfl, rfl⟩

/-! ## Sizes -/

theorem encode_congr (h : ∀ name, i.form ≠ .branch (.label name)) (pc pc' : Nat)
    (labels labels' : String → Option Nat) : encode i pc labels = encode i pc' labels' := by
  unfold encode Encode.form
  cases hform : i.form with
  | branch target =>
    cases target with
    | label name => exact absurd hform (h name)
    | symbol name offset => rfl
  | _ => rfl

theorem encode_label (hform : i.form = .branch (.label name)) (pc : Nat)
    (labels : String → Option Nat) : encode i pc labels = (do
      let word ← Encode.branchWord i.op i.condition i.suffixes
      match labels name with
      | none => .error (.undefinedLabel name)
      | some place =>
        if InReach (place - pc - readAhead) then
          return .ofWord (Branch.withDistance word (.ofInt 32 ((place - pc - readAhead) / 4)))
        else .error (.farLabel name (place - pc - readAhead))) := by
  simp only [encode, Encode.form, hform]
  rfl

theorem encode_label_self (hform : i.form = .branch (.label name)) (pc : Nat) :
    encode i pc (fun _ => some pc) = (do
      let word ← Encode.branchWord i.op i.condition i.suffixes
      return .ofWord (Branch.withDistance word (.ofInt 32 (-2)))) := by
  have hdistance : (pc : Int) - pc - readAhead = -8 := by
    unfold readAhead
    omega
  have hreach : InReach (-8) := by decide
  rw [encode_label hform]
  simp only [hdistance, if_pos hreach]
  rfl

def Instruction.size (i : Instruction) : Nat :=
  match encode i 0 (fun _ => some 0) with
  | .ok code => code.size
  | .error _ => 0

/-- **Sizes.** An instruction is as long wherever it stands, and whatever its label. -/
theorem size_of_encode {labels : String → Option Nat}
    (h : encode i pc labels = .ok code) : code.size = i.size := by
  unfold Instruction.size
  by_cases hlabel : ∃ name, i.form = .branch (.label name)
  · obtain ⟨name, hform⟩ := hlabel
    rw [encode_label hform] at h
    obtain ⟨word, hword, h⟩ := bind_eq_ok.mp h
    rw [encode_label_self hform, hword]
    split at h
    · cases h
    · split at h
      · cases pure_eq_ok.mp h
        rfl
      · cases h
  · rw [encode_congr (not_exists.mp hlabel) 0 pc _ labels, h]

/-- What fails in the first pass fails everywhere, for the same reason. -/
theorem encode_error_of_sizing (h : encode i pc (fun _ => some pc) = .error reason) (pc' : Nat)
    (labels : String → Option Nat) : encode i pc' labels = .error reason := by
  by_cases hlabel : ∃ name, i.form = .branch (.label name)
  · obtain ⟨name, hform⟩ := hlabel
    rw [encode_label_self hform] at h
    rcases bind_eq_error.mp h with hword | ⟨word, -, h⟩
    · rw [encode_label hform, hword]
      rfl
    · cases h
  · rw [encode_congr (not_exists.mp hlabel) pc' pc _ _, h]

/-- What succeeded in the first pass fails in the second one only for its label. -/
theorem encode_error_of_sized {pc' : Nat} {labels : String → Option Nat}
    (hsized : encode i pc (fun _ => some pc) = .ok code) (h : encode i pc' labels = .error reason) :
    ∃ name, i.form = .branch (.label name) ∧
      (labels name = none ∧ reason = .undefinedLabel name ∨
        ∃ place : Nat, labels name = some place ∧ ¬ InReach (place - pc' - readAhead) ∧
          reason = .farLabel name (place - pc' - readAhead)) := by
  by_cases hlabel : ∃ name, i.form = .branch (.label name)
  · obtain ⟨name, hform⟩ := hlabel
    refine ⟨name, hform, ?_⟩
    rw [encode_label_self hform] at hsized
    obtain ⟨word, hword, -⟩ := bind_eq_ok.mp hsized
    rw [encode_label hform, hword] at h
    cases hplace : labels name with
    | none =>
      simp only [hplace] at h
      cases h
      exact .inl ⟨rfl, rfl⟩
    | some place =>
      simp only [hplace] at h
      by_cases hreach : InReach (place - pc' - readAhead)
      · simp only [hreach] at h
        cases h
      · simp only [hreach] at h
        cases h
        exact .inr ⟨place, rfl, hreach, rfl⟩
  · rw [encode_congr (not_exists.mp hlabel) pc' pc _ (fun _ => some pc), hsized] at h
    cases h

/-! ## Places -/

/-- Where an instruction stands: behind all instructions before it. -/
def address (instructions : List Instruction) (k : Nat) : Nat :=
  ((instructions.take k).map Instruction.size).sum

/-- The instruction at an index carries a label. -/
def Carries (instructions : List Instruction) (k : Nat) (name : String) : Prop :=
  ∃ i, instructions[k]? = some i ∧ i.label = some name

/-- The instructions with their addresses and sizes, from an address on. -/
def positions : List Instruction → Nat → List Placed
  | [], _ => []
  | i :: rest, pc => ⟨i, pc, i.size⟩ :: positions rest (pc + i.size)

variable {rest instructions : List Instruction}

theorem address_succ : address (i :: rest) (k + 1) = i.size + address rest k := rfl

theorem carries_zero : Carries (i :: rest) 0 name ↔ i.label = some name :=
  ⟨fun ⟨_, hi, hlabel⟩ => Option.some.inj hi ▸ hlabel, fun hlabel => ⟨i, rfl, hlabel⟩⟩

theorem getElem?_positions (instructions : List Instruction) (pc k : Nat) :
    (positions instructions pc)[k]? =
      instructions[k]?.map fun i => ⟨i, pc + address instructions k, i.size⟩ := by
  induction instructions generalizing pc k with
  | nil => rfl
  | cons i rest ih =>
    cases k with
    | zero => rfl
    | succ k =>
      rw [positions, getElem?_cons_succ, getElem?_cons_succ, ih, address_succ,
        Nat.add_assoc]

/-! ## The first pass -/

theorem Labels.add_eq_ok {labels' : Labels} (h : labels.add i pc = .ok labels') :
    (∀ name, i.label = some name → labels.lookup name = none) ∧
      ∀ name a, labels'.lookup name = some a ↔
        labels.lookup name = some a ∨ i.label = some name ∧ a = pc := by
  unfold Labels.add at h
  split at h
  · rename_i hlabel
    cases h
    simp [hlabel]
  · rename_i own hlabel
    split at h
    · cases h
    · rename_i hfresh
      cases h
      simp only [hlabel, Option.some.injEq, lookup_append]
      refine ⟨fun name hname => hname ▸ hfresh, fun name a => ?_⟩
      by_cases hname : name = own
      · subst hname
        simp [hfresh, eq_comm]
      · have hne : (name == own) = false := beq_eq_false_iff_ne.mpr hname
        simp [lookup_cons, hne, Ne.symm hname]

theorem Labels.add_eq_error (h : labels.add i pc = .error e) :
    ∃ name a, i.label = some name ∧ labels.lookup name = some a ∧ e = .duplicateLabel name := by
  unfold Labels.add at h
  split at h
  · cases h
  · rename_i name hlabel
    split at h
    · rename_i a hfound
      cases h
      exact ⟨name, a, hlabel, hfound, rfl⟩
    · cases h

/-- What is known when all instructions were placed. -/
structure FirstPass (instructions : List Instruction) (pc : Nat) (labels : Labels)
    (placed : List Placed) (table : Labels) : Prop where
  placed : placed = positions instructions pc
  sized : ∀ i ∈ instructions, ∃ pc code, encode i pc (fun _ => some pc) = .ok code
  fresh : ∀ k name, Carries instructions k name → labels.lookup name = none
  unique : ∀ j k name, Carries instructions j name → Carries instructions k name → j = k
  /-- every label is found at the address of the instruction that carries it -/
  lookup : ∀ name a, table.lookup name = some a ↔
    labels.lookup name = some a ∨ ∃ k, Carries instructions k name ∧ a = pc + address instructions k

theorem place_eq_ok (h : place instructions pc labels = .ok (placed, table)) :
    FirstPass instructions pc labels placed table := by
  induction instructions generalizing pc labels placed table with
  | nil =>
    cases h
    have hnone (k : Nat) (name : String) : ¬ Carries [] k name := by
      rintro ⟨i, hi, -⟩
      cases hi
    refine ⟨rfl, forall_mem_nil _, fun k name hk => absurd hk (hnone k name),
      fun j k name hj => absurd hj (hnone j name), fun name a => ?_⟩
    simp [hnone]
  | cons i rest ih =>
    obtain ⟨labels', hadd, h⟩ := bind_eq_ok.mp h
    obtain ⟨code, hcode, h⟩ := bind_eq_ok.mp h
    obtain ⟨⟨placed', table'⟩, hplace, ⟨⟩⟩ := bind_pure_eq_ok.mp h
    have hcode := mapError_eq_ok.mp hcode
    obtain ⟨hnew, hlookup⟩ := Labels.add_eq_ok hadd
    have hrest := ih hplace
    -- a label that stands behind this instruction is not its own, nor known before it
    have hbehind (k : Nat) (name : String) (hk : Carries rest k name) :
        labels.lookup name = none ∧ i.label ≠ some name := by
      have hfresh := hrest.fresh k name hk
      constructor
      · rw [Option.eq_none_iff_forall_ne_some]
        intro a ha
        rw [(hlookup name a).mpr (.inl ha)] at hfresh
        cases hfresh
      · intro hlabel
        rw [(hlookup name pc).mpr (.inr ⟨hlabel, rfl⟩)] at hfresh
        cases hfresh
    refine ⟨?_, ?_, ?_, ?_, ?_⟩
    · rw [positions, ← size_of_encode hcode, ← hrest.placed]
    · exact forall_mem_cons.mpr ⟨⟨pc, code, hcode⟩, hrest.sized⟩
    · intro k name hk
      cases k with
      | zero => exact hnew name (carries_zero.mp hk)
      | succ k => exact (hbehind k name hk).1
    · intro j k name hj hk
      cases j with
      | zero =>
        cases k with
        | zero => rfl
        | succ k => exact absurd (carries_zero.mp hj) (hbehind k name hk).2
      | succ j =>
        cases k with
        | zero => exact absurd (carries_zero.mp hk) (hbehind j name hj).2
        | succ k => rw [hrest.unique j k name hj hk]
    · intro name a
      rw [hrest.lookup, hlookup, or_assoc]
      refine or_congr_right ?_
      constructor
      · rintro (⟨hlabel, rfl⟩ | ⟨k, hk, rfl⟩)
        · exact ⟨0, carries_zero.mpr hlabel, rfl⟩
        · refine ⟨k + 1, hk, ?_⟩
          rw [address_succ, size_of_encode hcode, Nat.add_assoc]
      · rintro ⟨k, hk, rfl⟩
        cases k with
        | zero => exact .inl ⟨carries_zero.mp hk, rfl⟩
        | succ k =>
          refine .inr ⟨k, hk, ?_⟩
          rw [address_succ, size_of_encode hcode, Nat.add_assoc]

/-- The first pass fails at a label that is known already or carried twice, or at an instruction
that cannot be encoded anywhere. -/
theorem place_eq_error (h : place instructions pc labels = .error e) :
    (∃ name k, e = .duplicateLabel name ∧ Carries instructions k name ∧
        ((labels.lookup name).isSome ∨ ∃ j, j < k ∧ Carries instructions j name)) ∨
      ∃ i ∈ instructions, ∃ reason, e = .noEncoding i reason ∧
        ∀ pc labels, encode i pc labels = .error reason := by
  induction instructions generalizing pc labels with
  | nil => cases h
  | cons i rest ih =>
    rcases bind_eq_error.mp h with hadd | ⟨labels', hadd, h⟩
    · obtain ⟨name, a, hlabel, hfound, rfl⟩ := Labels.add_eq_error hadd
      refine .inl ⟨name, 0, rfl, carries_zero.mpr hlabel, .inl ?_⟩
      rw [hfound]
      rfl
    rcases bind_eq_error.mp h with hcode | ⟨code, -, h⟩
    · obtain ⟨reason, hreason, rfl⟩ := mapError_eq_error.mp hcode
      exact .inr ⟨i, mem_cons_self, reason, rfl, encode_error_of_sizing hreason⟩
    rcases bind_eq_error.mp h with hplace | ⟨r, -, h⟩
    · rcases ih hplace with ⟨name, k, rfl, hk, hfirst⟩ | ⟨i', hi', hfails⟩
      · refine .inl ⟨name, k + 1, rfl, hk, ?_⟩
        rcases hfirst with hknown | ⟨j, hjk, hj⟩
        · obtain ⟨a, ha⟩ := Option.isSome_iff_exists.mp hknown
          rcases ((Labels.add_eq_ok hadd).2 name a).mp ha with hold | ⟨hlabel, -⟩
          · exact .inl (hold ▸ rfl)
          · exact .inr ⟨0, Nat.zero_lt_succ k, carries_zero.mpr hlabel⟩
        · exact .inr ⟨j + 1, Nat.succ_lt_succ hjk, hj⟩
      · exact .inr ⟨i', mem_cons_of_mem i hi', hfails⟩
    · cases h

/-! ## The second pass -/

theorem emit_eq_ok (h : emit labels placed = .ok body) : ∃ codes, Forall₂ (fun p code =>
        encode p.instruction p.pc (fun name => labels.lookup name) = .ok code) placed codes ∧
      body.bytes = codes.flatMap Code.bytes := by
  induction placed generalizing body with
  | nil =>
    cases h
    exact ⟨[], .nil, rfl⟩
  | cons p placed ih =>
    obtain ⟨code, hcode, h⟩ := bind_eq_ok.mp h
    split at h
    · obtain ⟨body', hbody, ⟨⟩⟩ := bind_pure_eq_ok.mp h
      obtain ⟨codes, hcodes, hbytes⟩ := ih hbody
      refine ⟨code :: codes, .cons (mapError_eq_ok.mp hcode) hcodes, ?_⟩
      rw [flatMap_cons, hbytes]
    · cases h

/-- The second pass fails at an instruction that cannot be encoded, or that is not as long as it was
in the first pass. -/
theorem emit_eq_error (h : emit labels placed = .error e) : ∃ p ∈ placed,
      (∃ reason, encode p.instruction p.pc (fun name => labels.lookup name) = .error reason ∧
        e = .noEncoding p.instruction reason) ∨
      ∃ code, encode p.instruction p.pc (fun name => labels.lookup name) = .ok code ∧
        code.size ≠ p.size := by
  induction placed with
  | nil => cases h
  | cons p placed ih =>
    rcases bind_eq_error.mp h with hcode | ⟨code, hcode, h⟩
    · obtain ⟨reason, hreason, rfl⟩ := mapError_eq_error.mp hcode
      exact ⟨p, mem_cons_self, .inl ⟨reason, hreason, rfl⟩⟩
    split at h
    · rcases bind_eq_error.mp h with hbody | ⟨body, -, h⟩
      · obtain ⟨p', hp', hfails⟩ := ih hbody
        exact ⟨p', mem_cons_of_mem p hp', hfails⟩
      · cases h
    · rename_i hsize
      exact ⟨p, mem_cons_self, .inr ⟨code, mapError_eq_ok.mp hcode, hsize⟩⟩

/-! ## Bodies -/

/-- A body is made of the codes of its instructions, one after the other, each encoded where it
stands and with all labels where they are, and its branches go to their labels. -/
structure Assembled (instructions : List Instruction) (labels : String → Option Nat)
    (codes : List Code) (body : Body) : Prop where
  labelled : ∀ name a, labels name = some a ↔
    ∃ k, Carries instructions k name ∧ a = address instructions k
  length : codes.length = instructions.length
  bytes : body.bytes = codes.flatMap Code.bytes
  counted : ∀ k, address instructions k = 4 * ((codes.take k).map (·.words.length)).sum
  /-- the code of an instruction is its encoding, as long as it was in the first pass -/
  encoded : ∀ k i code, instructions[k]? = some i → codes[k]? = some code →
    encode i (address instructions k) labels = .ok code ∧
      ∃ sized, encode i (address instructions k) (fun _ => some (address instructions k)) =
        .ok sized ∧ sized.words.length = code.words.length
  /-- a branch to a label goes to the one instruction that carries it, under its condition, and
  leaves a return address if it is a call -/
  lands : ∀ k i name, instructions[k]? = some i → i.form = .branch (.label name) →
    ∃ j w, (Carries instructions j name ∧ ∀ j', Carries instructions j' name → j' = j) ∧
      Bytes.slice? body.bytes (address instructions k) 4 = some (Bytes.ofWord w) ∧
      address instructions k + readAhead + displacement w = address instructions j ∧
      w.field 28 32 = i.guard.code ∧ Branch.isLink w = decide (i.op = .bl)

/-- Why a body is not assembled. -/
inductive Refused (instructions : List Instruction) : AssembleError → Prop
  | duplicate {j k : Nat} {name : String} (h : j < k) (hj : Carries instructions j name)
      (hk : Carries instructions k name) : Refused instructions (.duplicateLabel name)
  /-- an instruction has no encoding, wherever it stands and wherever the labels are -/
  | noEncoding {i : Instruction} {reason : EncodeError} (hi : i ∈ instructions)
      (h : ∀ pc labels, encode i pc labels = .error reason) :
      Refused instructions (.noEncoding i reason)
  | undefined {i : Instruction} {name : String} (hi : i ∈ instructions)
      (hform : i.form = .branch (.label name)) (h : ∀ k, ¬ Carries instructions k name) :
      Refused instructions (.noEncoding i (.undefinedLabel name))
  | far {i : Instruction} {j k : Nat} {name : String} (hi : instructions[k]? = some i)
      (hform : i.form = .branch (.label name)) (hj : Carries instructions j name)
      (h : ¬ InReach (address instructions j - address instructions k - readAhead)) :
      Refused instructions (.noEncoding i (.farLabel name
        (address instructions j - address instructions k - readAhead)))

theorem Code.length_bytes (code : Code) : code.bytes.length = code.size := by
  rw [Code.bytes, Code.size, length_flatMap]
  simp [Nat.mul_comm]

theorem sizes_of_positions {labels : String → Option Nat}
    (h : Forall₂ (fun p code => encode p.instruction p.pc labels = .ok code)
      (positions instructions pc) codes) :
    instructions.map Instruction.size = codes.map Code.size := by
  induction instructions generalizing pc codes with
  | nil =>
    cases h
    rfl
  | cons i rest ih =>
    cases h with
    | cons hcode hrest => rw [map_cons, map_cons, size_of_encode hcode, ih hrest]

theorem sum_map_size : (codes.map Code.size).sum = 4 * (codes.map (·.words.length)).sum := by
  induction codes with
  | nil => rfl
  | cons code codes ih =>
    rw [map_cons, map_cons, sum_cons, sum_cons, ih, Code.size, Nat.mul_add]

theorem slice?_codes (h : codes[k]? = some code) :
    Bytes.slice? (codes.flatMap Code.bytes) ((codes.take k).map Code.size).sum code.size =
      some code.bytes := by
  obtain ⟨hlt, rfl⟩ := List.getElem?_eq_some_iff.mp h
  have hsplit : codes.flatMap Code.bytes = (codes.take k).flatMap Code.bytes ++
      (codes[k].bytes ++ (codes.drop (k + 1)).flatMap Code.bytes) := by
    rw [← flatMap_cons, getElem_cons_drop, ← flatMap_append,
      take_append_drop]
  have hlength : ((codes.take k).flatMap Code.bytes).length =
      ((codes.take k).map Code.size).sum := by
    rw [length_flatMap]
    simp only [Code.length_bytes]
  rw [hsplit, ← hlength, ← Code.length_bytes]
  exact Bytes.slice?_append_self _ _ _

theorem lands_of_encode {labels : String → Option Nat} (hform : i.form = .branch (.label name))
    (h : encode i pc labels = .ok code) :
    ∃ (place : Nat) (w : Word), labels name = some place ∧ code = .ofWord w ∧
      (4 ∣ (place : Int) - pc → pc + readAhead + displacement w = place) ∧
      w.field 28 32 = i.guard.code ∧ Branch.isLink w = decide (i.op = .bl) := by
  rw [encode_label hform] at h
  obtain ⟨word, hword, h⟩ := bind_eq_ok.mp h
  cases hplace : labels name with
  | none =>
    simp only [hplace] at h
    cases h
  | some place =>
    simp only [hplace] at h
    by_cases hreach : InReach (place - pc - readAhead)
    · rw [if_pos hreach] at h
      cases pure_eq_ok.mp h
      refine ⟨place, _, rfl, rfl, fun hdvd => ?_, Encode.fields_of_branchWord _ hword⟩
      have hwhole : 4 ∣ (place : Int) - pc - readAhead := Int.dvd_sub hdvd (by decide)
      rw [Branch.displacement_withDistance, (Branch.carried_eq_iff hwhole).mpr hreach]
      omega
    · rw [if_neg hreach] at h
      cases h

theorem assembled_of_passes (hfirst : FirstPass instructions 0 [] placed table)
    (hcodes : Forall₂ (fun p code =>
      encode p.instruction p.pc (fun name => table.lookup name) = .ok code) placed codes)
    (hbytes : body.bytes = codes.flatMap Code.bytes) :
    Assembled instructions (fun name => table.lookup name) codes body := by
  rw [hfirst.placed] at hcodes
  have hlabels (name : String) (a : Nat) : table.lookup name = some a ↔
      ∃ k, Carries instructions k name ∧ a = address instructions k := by
    simpa using hfirst.lookup name a
  have hsizes := sizes_of_positions hcodes
  have haddress (k : Nat) : address instructions k = ((codes.take k).map Code.size).sum := by
    rw [address, map_take, map_take, hsizes]
  have hcounted (k : Nat) :
      address instructions k = 4 * ((codes.take k).map (·.words.length)).sum := by
    rw [haddress, sum_map_size]
  have hencoded (k : Nat) (i : Instruction) (code : Code) (hi : instructions[k]? = some i)
      (hcode : codes[k]? = some code) :
      encode i (address instructions k) (fun name => table.lookup name) = .ok code := by
    have hp := getElem?_positions instructions 0 k
    rw [hi, Option.map_some, Nat.zero_add] at hp
    obtain ⟨hlt, hp⟩ := List.getElem?_eq_some_iff.mp hp
    obtain ⟨hlt', rfl⟩ := List.getElem?_eq_some_iff.mp hcode
    have hk := hcodes.get hlt hlt'
    rwa [get_eq_getElem, hp] at hk
  have hlength : codes.length = instructions.length := by
    simpa using congrArg length hsizes.symm
  refine ⟨hlabels, hlength, hbytes, hcounted, fun k i code hi hcode => ?_,
    fun k i name hi hform => ?_⟩
  · have hok := hencoded k i code hi hcode
    refine ⟨hok, ?_⟩
    cases hsized : encode i (address instructions k) (fun _ => some (address instructions k)) with
    | error reason =>
      rw [encode_error_of_sizing hsized] at hok
      cases hok
    | ok sized =>
      have hsize := (size_of_encode hsized).trans (size_of_encode hok).symm
      exact ⟨sized, rfl, Nat.eq_of_mul_eq_mul_left (by decide) hsize⟩
  · have hlt : k < codes.length := by
      rw [hlength]
      exact (List.getElem?_eq_some_iff.mp hi).1
    have hcode := getElem?_eq_getElem hlt
    obtain ⟨place, w, hplace, hw, hlands, hfields⟩ :=
      lands_of_encode hform (hencoded k i _ hi hcode)
    obtain ⟨j, hj, rfl⟩ := (hlabels name place).mp hplace
    rw [hw] at hcode
    refine ⟨j, w, ⟨hj, fun j' hj' => hfirst.unique j' j name hj' hj⟩, ?_, hlands ?_, hfields⟩
    · rw [hbytes, haddress]
      exact slice?_codes hcode
    · rw [hcounted, hcounted]
      omega

/-- **Branches to labels.** A body that is assembled consists of the encodings of its instructions,
which are as long as the first pass took them to be, and each of its branches to a label goes to the
one instruction that carries it. A body is refused only for an instruction that has no encoding, or
for a label that is carried twice, by nobody, or out of reach; never because an instruction changed
its size. The body has less than 2^32 bytes, so that its addresses do. -/
theorem branches_reach_labels (instructions : List Instruction) :
    (∀ body, assemble instructions = .ok body →
        ∃ labels codes, Assembled instructions labels codes body) ∧
      ∀ e, assemble instructions = .error e → Refused instructions e := by
  constructor
  · intro body h
    obtain ⟨⟨placed, table⟩, hplace, h⟩ := bind_eq_ok.mp h
    obtain ⟨codes, hcodes, hbytes⟩ := emit_eq_ok h
    exact ⟨_, codes, assembled_of_passes (place_eq_ok hplace) hcodes hbytes⟩
  · intro e h
    rcases bind_eq_error.mp h with hplace | ⟨⟨placed, table⟩, hplace, h⟩
    · rcases place_eq_error hplace with ⟨name, k, rfl, hk, hfirst⟩ | ⟨i, hi, reason, rfl, hfails⟩
      · rcases hfirst with hknown | ⟨j, hjk, hj⟩
        · cases hknown
        · exact .duplicate hjk hj hk
      · exact .noEncoding hi hfails
    · have hfirst := place_eq_ok hplace
      obtain ⟨p, hp, hfails⟩ := emit_eq_error h
      -- an instruction that was placed stands at its address
      rw [hfirst.placed] at hp
      obtain ⟨k, hk⟩ := List.mem_iff_getElem?.mp hp
      rw [getElem?_positions] at hk
      obtain ⟨i, hi, rfl⟩ := Option.map_eq_some_iff.mp hk
      rcases hfails with ⟨reason, hreason, rfl⟩ | ⟨code, hcode, hsize⟩
      · have hmem := List.mem_of_getElem? hi
        obtain ⟨pc, code, hsized⟩ := hfirst.sized i hmem
        obtain ⟨name, hform, ⟨hnone, rfl⟩ | ⟨place, hplace, hfar, rfl⟩⟩ :=
          encode_error_of_sized hsized hreason
        · refine .undefined hmem hform fun j hj => ?_
          have hfound := (hfirst.lookup name _).mpr (.inr ⟨j, hj, rfl⟩)
          rw [hnone] at hfound
          cases hfound
        · rcases (hfirst.lookup name place).mp hplace with hknown | ⟨j, hj, rfl⟩
          · cases hknown
          · simp only [Nat.zero_add] at hfar ⊢
            exact .far hi hform hj hfar
      · exact absurd (size_of_encode hcode) hsize

/-- A branch over a constant that takes a literal. -/
def overLiteral : List Instruction :=
  [{ op := .b, form := .branch (.label "done") },
   { op := .movw, form := .immediate 0x00ff00ff none 0 },
   { op := .movw, form := .registers 0 none 1, label := some "done" }]

theorem branches_reach_labels_sample : ∃ body labels codes, assemble overLiteral = .ok body ∧
      Assembled overLiteral labels codes body ∧
      Bytes.slice? body.bytes 0 4 = some (Bytes.ofWord 0xea000002) ∧
      0 + readAhead + displacement 0xea000002 = address overLiteral 2 := by
  have hassemble : assemble overLiteral =
      .ok ⟨[0xea000002, 0xe59f0000, 0xea000000, 0x00ff00ff, 0xe1a01000].flatMap Bytes.ofWord, []⟩ :=
    rfl
  obtain ⟨labels, codes, hassembled⟩ := (branches_reach_labels overLiteral).1 _ hassemble
  exact ⟨_, labels, codes, hassemble, hassembled, rfl, by decide⟩

end ArmLink.Arm
