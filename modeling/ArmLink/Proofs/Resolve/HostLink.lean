import ArmLink.Proofs.Arm.Branch
import ArmLink.Proofs.Layout.Packing
import ArmLink.Proofs.Relocation
import ArmLink.Proofs.Resolve

/-!
# Relocations that a host linker applies

If a host linker finishes the link, a relocation is restated against the outermost symbol around its
target, and the offset of the target there goes into the addend in place. Wherever the host linker
puts the sections, it computes what would have been computed for the target at those addresses.
-/

namespace ArmLink.Resolve

open SymbolTable Layout List
open Relocation (Kind Outcome)

variable {t t₁ t₂ t₀ : SymbolTable} {c : Context} {owner target root : SymbolId}
  {r : Relocation SymbolId} {kind kind' : Kind} {addend addend' a b : Word64}
  {delta type place size address : Nat} {l : Layout} {resolved : Resolved} {site : Site}
  {fills : List Fill}

/-! ## The host linker -/

/-- What a host linker makes of the word in place, by the ELF type of the relocation: `place` is the
address of the word, and `symbol` that of the symbol, or the offset of a thread-local symbol in its
block. -/
def hostWord? (type : Nat) (place symbol word : Word) : Option Word :=
  open Elf.RelocationType in
  if type = abs32 then some (symbol + word)
  else if type = rel32 then some (symbol + word - place)
  else if type = tlsLe32 then some (8 + symbol + word)
  else if type = call ∨ type = jump24 then
    some (Arm.Branch.withDistance word
      ((symbol + .ofInt 32 (Arm.Branch.displacement word) - place) >>> 2))
  else none

theorem hostWord?_branch (h : type = Elf.RelocationType.call ∨ type = Elf.RelocationType.jump24)
    (place symbol word : Word) :
    hostWord? type place symbol word = some (Arm.Branch.withDistance word
      ((symbol + .ofInt 32 (Arm.Branch.displacement word) - place) >>> 2)) := by
  rcases h with rfl | rfl <;> rfl

/-- A symbol once its section starts where `base` says. Addresses have 64 bits. -/
def rebased (l : Layout) (base : SectionId → Nat) (s : Symbol) : Symbol :=
  match s.sectionId, s.value with
  | some id, some value =>
    let moved : Word64 := .ofNat 64 (base id + value) - .ofNat 64 (l.getSection id).origin
    { s with value := some moved.toNat }
  | _, _ => s

/-- The symbols once each section starts where `base` says. -/
def rebase (l : Layout) (base : SectionId → Nat) (t : SymbolTable) : SymbolTable :=
  ⟨t.symbols.map (rebased l base)⟩

theorem get_rebase (base : SectionId → Nat) {id : SymbolId} :
    (rebase l base t).get id = rebased l base (t.get id) := by
  simp only [SymbolTable.get, rebase, Array.getD_eq_getD_getElem?, Array.getElem?_map]
  cases t.symbols[id]? with
  | none => rfl
  | some s => rfl

theorem exists_value_rebase (l : Layout) (base : SectionId → Nat)
    (h : (t.get owner).value.isSome = true) :
    ∃ place, ((rebase l base t).get owner).value = some place := by
  obtain ⟨value, hvalue⟩ := Option.isSome_iff_exists.mp h
  rw [get_rebase, rebased]
  split
  · exact ⟨_, rfl⟩
  · exact ⟨value, hvalue⟩

/-! ## What is passed on -/

/-- The addend of a relocation against a symbol that holds the target at `delta`. -/
inductive Restated (addend : Word64) (delta size : Nat) : Kind → Word64 → Prop
  | absolute : Restated addend delta size .absolute (addend + .ofNat 64 delta)
  | tls : Restated addend delta size .tls (addend + .ofNat 64 delta)
  | pcRelative :
      Restated addend delta size .pcRelative (addend + .ofNat 64 delta - .ofNat 64 size)
  | call : Restated addend delta size .call
      ((Arm.Branch.advance (addend.setWidth 32) (.ofNat 32 (delta / 4))).setWidth 64)

/-- A host linker can find the symbol: it is defined elsewhere, or has a section. -/
def CanBeFound (s : Symbol) : Prop :=
  s.kind = .dynamicImport ∨ s.kind = .hostObject ∨ s.sectionId ≠ none

theorem eq_of_defer {s : Symbol} {reason : ResolveError} {deferred : Resolved}
    (h : (if ¬ (s.kind = .dynamicImport ∨ s.kind = .hostObject) ∧ s.sectionId.isNone then
        .error reason
      else .ok (some deferred)) = Except.ok (some resolved)) :
    resolved = deferred ∧ CanBeFound s := by
  split at h
  · cases h
  · rename_i hfound
    cases h
    refine ⟨rfl, ?_⟩
    by_contra hnot
    simp only [CanBeFound, not_or, ne_eq, not_not] at hnot
    refine hfound ⟨fun helsewhere => helsewhere.elim hnot.1 hnot.2.1, ?_⟩
    rw [hnot.2.2]
    rfl

/-- A relocation is restated against the outermost symbol around its target. -/
theorem restate_some (h : restate t owner kind target addend size site = .ok (some resolved)) :
    ∃ addend', resolved = .deferred kind (t.outermost target).1 addend' ∧
      CanBeFound (t.get (t.outermost target).1) ∧
      Restated addend (t.outermost target).2 size kind addend' := by
  unfold restate at h
  split at h
  · cases h
  · cases kind with
    | absolute =>
      obtain ⟨rfl, hfound⟩ := eq_of_defer h
      exact ⟨_, rfl, hfound, .absolute⟩
    | tls =>
      obtain ⟨rfl, hfound⟩ := eq_of_defer h
      exact ⟨_, rfl, hfound, .tls⟩
    | pcRelative =>
      dsimp only at h
      split at h
      · cases h
      · obtain ⟨rfl, hfound⟩ := eq_of_defer h
        exact ⟨_, rfl, hfound, .pcRelative⟩
    | call =>
      obtain ⟨rfl, hfound⟩ := eq_of_defer h
      exact ⟨_, rfl, hfound, .call⟩
    | _ => cases h

theorem restate_ok
    (h : restate t owner kind target addend size site = .ok (some (.deferred kind' root addend'))) :
    kind' = kind ∧ root = (t.outermost target).1 ∧ CanBeFound (t.get root) ∧
      Restated addend (t.outermost target).2 size kind addend' := by
  obtain ⟨_, ⟨⟩, hfound, hrestated⟩ := restate_some h
  exact ⟨rfl, rfl, hfound, hrestated⟩

/-- Only words are passed on. -/
theorem size_of_hostType {insn : Word} (h : Arm.Machine.hostType kind size insn = .ok type) :
    size = 4 := by
  unfold Arm.Machine.hostType at h
  split at h
  · cases h
  · omega

/-- A relocation that was left to the host linker is restated, written in place and passed on. -/
theorem settle_deferred {x : Settlement} (hr : r.outcome = .pending kind (some target) addend)
    (h : settle c t owner r = .ok x) (hx : x.2.1 = .deferred kind' root addend') :
    kind' = kind ∧ root = (t.outermost target).1 ∧
      Restated addend (t.outermost target).2 r.size kind addend' ∧ x.1 = addend' ∧
      ∃ type, Arm.Machine.hostType kind r.size (addend'.setWidth 32) = .ok type ∧
        x.2.2 = some ⟨owner, r.offset, type, root⟩ := by
  obtain ⟨resolved, hresolve, hrecord⟩ := bind_eq_ok.mp h
  cases resolved with
  | value v =>
    cases hrecord
    cases hx
  | deferred kind₁ root₁ addend₁ =>
    rcases resolve_pending hr hresolve with ⟨-, hrestate⟩ | ⟨v, hv, -⟩
    · obtain ⟨rfl, hroot, -, hrestated⟩ := restate_ok hrestate
      unfold record at hrecord
      dsimp only at hrecord
      split at hrecord
      · rename_i type htype
        cases hrecord
        cases hx
        exact ⟨rfl, hroot, hrestated, rfl, type, htype, rfl⟩
      · cases hrecord
    · cases hv

theorem place_of_isCandidate (h : Computed t l t₁ t₀ fills)
    (hroot : isCandidate (t.get root) = true) (hplaced : (t.get root).kind.isPlaced = true) :
    (t₁.get root).kind.isPlaced = true ∧ ∃ id value, (t₁.get root).sectionId = some id ∧
      (t₁.get root).value = some value := by
  have hplaced₁ : (t₁.get root).kind.isPlaced = true := by
    obtain ⟨kind, hkind, hget⟩ := h.get_of_isCandidate hroot
    have hpromoted := isPlaced_promoted hplaced
    rw [promoted_of_ok hroot hkind] at hpromoted
    rw [hget]
    exact hpromoted
  obtain ⟨s, hs, hmem⟩ := mem_flatMap.mp (h.mem_symbols.mpr ⟨hroot, hplaced₁⟩)
  obtain ⟨id, hid⟩ := getElem?_of_mem hs
  obtain ⟨hsection, value, hvalue, -⟩ := h.value_of_mem hid hmem
  exact ⟨hplaced₁, id, value, hsection, hvalue⟩

theorem outermost_of_outer (h : (t.get target).outer = none) :
    t.outermost target = (target, 0) := by
  unfold outermost
  cases t.size with
  | zero => rfl
  | succ n => rw [walkOut, h]

/-- What lies in a symbol with a place has the address of its place there, in 64 bits. -/
theorem value_of_outermost {value : Nat} (h : Computed t l t₁ t₀ fills)
    (hroot : isCandidate (t.get root) = true) (htarget : (t.get target).special = false)
    (hkind : (t₁.get root).kind.isPlaced = true) (hvalue : (t₁.get root).value = some value)
    (hout : t₁.outermost target = (root, delta)) :
    (∃ address, (t₁.get target).value = some address ∧
      BitVec.ofNat 64 address = .ofNat 64 (value + delta)) ∧
      (t₁.get target).sectionId = (t₁.get root).sectionId := by
  cases houter : (t₁.get target).outer with
  | none =>
    rw [outermost_of_outer houter] at hout
    cases hout
    exact ⟨⟨value, hvalue, rfl⟩, rfl⟩
  | some container =>
    have hspecial (id : SymbolId) (hid : (t.get id).special = false) :
        (t₀.get id).special = false := by
      rw [h.promoted, promoted_eq]
      exact hid
    obtain ⟨-, hrootSpecial, hrootOuter⟩ := isCandidate_iff.mp hroot
    have houter₁ := h.keeps.read Symbol.outer fun _ => rfl
    have hinside : Inside t₁ target root delta value :=
      ⟨by rw [houter]; rfl, hout, (houter₁.2 root).trans hrootOuter, hvalue, hkind⟩
    obtain ⟨haddress, hsection⟩ :=
      h.finished.inside target root delta value (hspecial _ htarget) (hspecial _ hrootSpecial)
        hinside
    exact ⟨⟨_, haddress, Word64.ofNat_wrap _⟩, hsection⟩

/-! ## Words -/

theorem narrow_add : (a + b).setWidth 32 = (a.setWidth 32 + b.setWidth 32 : Word) :=
  BitVec.setWidth_add a b (by decide)

theorem narrow_sub : (a - b).setWidth 32 = (a.setWidth 32 - b.setWidth 32 : Word) := by
  bv_omega

theorem narrow_ofNat {n : Nat} : (BitVec.ofNat 64 n).setWidth 32 = (BitVec.ofNat 32 n : Word) :=
  BitVec.setWidth_ofNat_of_le (by decide) n

theorem narrow_widen (w : Word) : (w.setWidth 64).setWidth 32 = w := by
  rw [BitVec.setWidth_setWidth_of_le _ (by decide), BitVec.setWidth_eq]

theorem distance_restated {symbol addend delta size place : Word} :
    symbol + (addend + delta - size) - place = symbol + delta + addend - (place + size) := by
  simp only [BitVec.sub_eq_add_neg, BitVec.neg_add]
  ac_rfl

theorem withDistance_of_advance {symbol : Nat} (insn : Word) (hdelta : 4 ∣ delta)
    (hdistance : (4 : Int) ∣ symbol - place) :
    let word := Arm.Branch.advance insn (.ofNat 32 (delta / 4))
    Arm.Branch.withDistance word
        ((.ofNat 32 symbol + .ofInt 32 (Arm.Branch.displacement word) - .ofNat 32 place : Word)
          >>> 2) =
      Arm.Branch.advance insn (.ofInt 32
        ((BitVec.ofNat 64 (symbol + delta) - .ofNat 64 place).toInt / 4)) := by
  intro word
  obtain ⟨words, hwords⟩ := hdistance
  rw [Arm.Branch.withDistance_eq_advance word (hwords.trans (Int.mul_comm 4 words)),
    Arm.Branch.advance_advance]
  refine Arm.Branch.advance_congr insn ?_
  rw [Word.low_add, ← BitVec.ofInt_natCast, Word.low_ofInt, Word.low_ofInt, Word.low_ofInt,
    ← BitVec.ofInt_add]
  apply BitVec.eq_of_toNat_eq
  obtain ⟨k, hk⟩ := Word64.exists_toInt_sub (symbol + delta) place
  rw [BitVec.toNat_ofInt, BitVec.toNat_ofInt, hk]
  omega

/-- The value of a relocation of one of the kinds that are passed on, branches apart. -/
theorem valueOf_eq (c : Context) (r : Relocation SymbolId) (addend : Word64) (site : Site)
    (howner : (t.get owner).value = some place) (htarget : (t.get target).value = some address) :
    valueOf c t owner r .absolute target addend site = .ok (.ofNat 64 address + addend) ∧
    valueOf c t owner r .pcRelative target addend site = .ok (.ofNat 64 address + addend -
      (.ofNat 64 (place + r.offset) + .ofNat 64 r.size)) ∧
    valueOf c t owner r .tls target addend site =
      .ok (.ofNat 64 Arm.Machine.tlsBias + addend + .ofNat 64 address) := by
  unfold valueOf
  dsimp only
  rw [howner, htarget]
  exact ⟨rfl, rfl, rfl⟩

/-- A branch is resolved as the architecture says. -/
theorem valueOf_call (c : Context) (r : Relocation SymbolId) (addend : Word64) (site : Site)
    (howner : (t.get owner).value = some place) (htarget : (t.get target).value = some address) :
    valueOf c t owner r .call target addend site =
      match Arm.Machine.branch ⟨.ofNat 64 address, addend, .ofNat 64 (place + r.offset),
        c.got.map (.ofNat 64)⟩ with
      | .ok word => .ok (word.setWidth 64)
      | .error reason => .error (.machine site reason) := by
  unfold valueOf
  dsimp only
  rw [howner, htarget]
  dsimp only [Arm.Machine.resolve?, Bind.bind, Except.bind]
  cases Arm.Machine.branch _ <;> rfl

theorem branchType_of_ite {p : Prop} [Decidable p] {ε : Type}
    (h : (if p then .ok Elf.RelocationType.call else .ok Elf.RelocationType.jump24) =
      (.ok type : Except ε Nat)) :
    type = Elf.RelocationType.call ∨ type = Elf.RelocationType.jump24 := by
  split at h
  · exact .inl (Except.ok.inj h).symm
  · exact .inr (Except.ok.inj h).symm

/-- **Agreement.** What the host linker makes of the restated addend is the value of the original
relocation, unless that is a branch out of reach. -/
theorem hostWord_of_restated {symbol : Nat} (site : Site)
    (hrestated : Restated addend delta r.size kind addend')
    (htype : Arm.Machine.hostType kind r.size (addend'.setWidth 32) = .ok type)
    (howner : (t.get owner).value = some place) (htarget : (t.get target).value = some address)
    (haddress : BitVec.ofNat 64 address = .ofNat 64 (symbol + delta))
    (hcall : kind = .call → 4 ∣ delta ∧ (4 : Int) ∣ symbol - (place + r.offset : Nat)) :
    (∃ v, valueOf c t owner r kind target addend site = .ok v ∧
      hostWord? type (.ofNat 32 (place + r.offset)) (.ofNat 32 symbol) (addend'.setWidth 32) =
        some (v.setWidth 32)) ∨
    kind = .call ∧ ∃ far, ¬ Arm.Branch.InReach far ∧
      valueOf c t owner r kind target addend site = .error (.machine site (.farBranch far)) := by
  obtain ⟨habsolute, hpcRelative, htls⟩ := valueOf_eq c r addend site howner htarget
  have hbranch := valueOf_call c r addend site howner htarget
  rw [haddress] at habsolute hpcRelative htls hbranch
  unfold Arm.Machine.hostType at htype
  split at htype
  · cases htype
  · cases hrestated with
    | absolute =>
      cases htype
      refine .inl ⟨_, habsolute, ?_⟩
      show some (_ + _) = _
      rw [narrow_add, narrow_add, narrow_ofNat, narrow_ofNat, BitVec.ofNat_add]
      congr 1
      ac_rfl
    | tls =>
      cases htype
      refine .inl ⟨_, htls, ?_⟩
      show some (BitVec.ofNat 32 Arm.Machine.tlsBias + _ + _) = _
      rw [narrow_add, narrow_add, narrow_add, narrow_ofNat, narrow_ofNat, narrow_ofNat,
        BitVec.ofNat_add]
      congr 1
      ac_rfl
    | pcRelative =>
      cases htype
      refine .inl ⟨_, hpcRelative, ?_⟩
      show some (_ + _ - _) = _
      rw [narrow_sub, narrow_sub, narrow_add, narrow_add, narrow_add, narrow_ofNat, narrow_ofNat,
        narrow_ofNat, narrow_ofNat, BitVec.ofNat_add symbol delta]
      exact congrArg some (distance_restated ..)
    | call =>
      obtain ⟨hdelta, hdistance⟩ := hcall rfl
      let i : Arm.Machine.Inputs :=
        ⟨.ofNat 64 (symbol + delta), addend, .ofNat 64 (place + r.offset), c.got.map (.ofNat 64)⟩
      cases hword : Arm.Machine.branch i with
      | ok word =>
        refine .inl ⟨word.setWidth 64, by rw [hbranch, hword], ?_⟩
        obtain ⟨-, rfl⟩ := Arm.Machine.branch_eq_ok hword
        rw [hostWord?_branch (branchType_of_ite htype), narrow_widen, narrow_widen]
        exact congrArg some (withDistance_of_advance (addend.setWidth 32) hdelta hdistance)
      | error reason =>
        obtain ⟨far, hfar, rfl⟩ := Arm.Machine.branch_eq_error hword
        exact .inr ⟨rfl, far, hfar, by rw [hbranch, hword]⟩

/-! ## Deferred relocations -/

theorem deferred_of_apply {hosts : List HostRelocation} {position : Nat}
    (happly : apply t₁ l true = .ok (t₂, hosts))
    (hr : (t₁.get owner).relocations[position]? = some r)
    (hpending : r.outcome = .pending kind (some target) addend)
    (hdeferred : (t₂.get owner).relocations[position]? =
      some { r with outcome := .deferred kind' root addend' }) :
    kind' = kind ∧ root = (t₁.outermost target).1 ∧
      Restated addend (t₁.outermost target).2 r.size kind addend' ∧
      (∃ type, Arm.Machine.hostType kind r.size (addend'.setWidth 32) = .ok type ∧
        ⟨owner, r.offset, type, root⟩ ∈ hosts) ∧
      ((∀ j r', position < j → (t₁.get owner).relocations[j]? = some r' → ¬ Overlap r r') →
        (t₂.get owner).data.slice? r.offset r.size = some (.ofNat r.size addend'.toNat)) := by
  obtain ⟨-, happlied⟩ := apply_ok happly
  have hsite : isSite (t₁.get owner) = true := by
    refine eq_true_of_ne_false fun hnot => ?_
    rw [(happlied owner).other hnot, hr] at hdeferred
    have houtcome := congrArg Relocation.outcome (Option.some.inj hdeferred)
    rw [hpending] at houtcome
    cases houtcome
  obtain ⟨done, hdone, hhosts⟩ := (happlied owner).site hsite
  obtain ⟨hi, hr'⟩ := List.getElem?_eq_some_iff.mp hr
  have hsplit : (t₁.get owner).relocations = (t₁.get owner).relocations.take position ++
      r :: (t₁.get owner).relocations.drop (position + 1) := by
    rw [← hr', getElem_cons_drop, take_append_drop]
  obtain ⟨x, hsettle, hmem, hrelocation, hslice⟩ := hdone.site hsplit
  rw [length_take, Nat.min_eq_left (Nat.le_of_lt hi), hdeferred] at hrelocation
  have hx : x.2.1 = .deferred kind' root addend' :=
    (congrArg Relocation.outcome (Option.some.inj hrelocation)).symm
  obtain ⟨rfl, hroot, hrestated, hvalue, type, htype, hhost⟩ := settle_deferred hpending hsettle hx
  refine ⟨rfl, hroot, hrestated, ⟨type, htype, hhosts _ hmem _ hhost⟩, fun hlater => ?_⟩
  rw [← hvalue]
  refine hslice fun r' hr' => ?_
  obtain ⟨j, hj⟩ := mem_iff_getElem?.mp hr'
  rw [getElem?_drop] at hj
  exact hlater _ r' (by omega) hj

/-- **Host linkers agree.** Wherever a host linker puts the sections, what it makes of the word in
place of a relocation that was left to it is the value of the original relocation there. The word
in place is the addend, unless a later relocation patches one of its bytes. -/
theorem hostWord_of_deferred {l : Layout} {hosts : List HostRelocation} {position first : Nat}
    {relocatable : Bool} (hs : t.HasSentinels)
    (hcompute : compute t relocatable first = .ok (l, t₁))
    (happly : apply t₁ l true = .ok (t₂, hosts))
    (hr : (t₁.get owner).relocations[position]? = some r)
    (hpending : r.outcome = .pending kind (some target) addend)
    (hdeferred : (t₂.get owner).relocations[position]? =
      some { r with outcome := .deferred kind' root addend' })
    (howner : (t₁.get owner).value.isSome = true) (htarget : (t.get target).special = false)
    (hroot : isCandidate (t.get root) = true) (hplaced : (t.get root).kind.isPlaced = true) :
    r.size = 4 ∧ kind' = kind ∧ kind ∈ [.absolute, .pcRelative, .call, .tls] ∧
      root = (t₁.outermost target).1 ∧
      ((∀ j r', position < j → (t₁.get owner).relocations[j]? = some r' → ¬ Overlap r r') →
        (t₂.get owner).data.slice? r.offset 4 = some (Bytes.ofWord (addend'.setWidth 32))) ∧
      ∃ type, Arm.Machine.hostType kind 4 (addend'.setWidth 32) = .ok type ∧
        ⟨owner, r.offset, type, root⟩ ∈ hosts ∧ ∀ base : SectionId → Nat, ∃ place symbol,
        ((rebase l base t₁).get owner).value = some place ∧
        ((rebase l base t₁).get root).value = some symbol ∧
        ((kind = .call → 4 ∣ (t₁.outermost target).2 ∧
            (4 : Int) ∣ symbol - (place + r.offset : Nat)) → ∀ c site,
          (∃ v, valueOf c (rebase l base t₁) owner r kind target addend site = .ok v ∧
            hostWord? type (.ofNat 32 (place + r.offset)) (.ofNat 32 symbol)
              (addend'.setWidth 32) = some (v.setWidth 32)) ∨
          kind = .call ∧ ∃ far, ¬ Arm.Branch.InReach far ∧
            valueOf c (rebase l base t₁) owner r kind target addend site =
              .error (.machine site (.farBranch far))) := by
  obtain ⟨t₀, fills, hcomputed⟩ := compute_ok hs hcompute
  obtain ⟨rfl, hout, hrestated, ⟨type, htype, hhost⟩, hslice⟩ :=
    deferred_of_apply happly hr hpending hdeferred
  obtain ⟨hkind, id, value, hsection, hvalue⟩ := place_of_isCandidate hcomputed hroot hplaced
  have hpair : t₁.outermost target = (root, (t₁.outermost target).2) := by rw [hout]
  obtain ⟨⟨address, htargetValue, haddress⟩, htargetSection⟩ :=
    value_of_outermost hcomputed hroot htarget hkind hvalue hpair
  have hsize : r.size = 4 := size_of_hostType htype
  refine ⟨hsize, rfl, ?_, hout, ?_, type, hsize ▸ htype, hhost, fun base => ?_⟩
  · cases hrestated <;> simp
  · intro hlater
    have hbytes := hslice hlater
    rw [hsize, ← Bytes.ofNat_mod] at hbytes
    exact hbytes
  · obtain ⟨place, hplace⟩ := exists_value_rebase l base howner
    let moved (value : Nat) : Word64 :=
      .ofNat 64 (base id + value) - .ofNat 64 (l.getSection id).origin
    have hmoved : ((rebase l base t₁).get target).value = some (moved address).toNat := by
      rw [get_rebase, rebased, htargetSection, hsection, htargetValue]
    refine ⟨place, (moved value).toNat, hplace, ?_, fun hcall c site => ?_⟩
    · rw [get_rebase, rebased, hsection, hvalue]
    · refine hostWord_of_restated site hrestated htype hplace hmoved ?_ hcall
      rw [BitVec.ofNat_add (moved value).toNat, BitVec.ofNat_toNat, BitVec.ofNat_toNat,
        BitVec.setWidth_eq, BitVec.setWidth_eq]
      simp only [moved, BitVec.ofNat_add, haddress, BitVec.sub_eq_add_neg]
      ac_rfl

/-- A branch into a part of a part of a symbol of another section. -/
def hostSample : SymbolTable :=
  ⟨SymbolTable.initial.symbols ++ (
    [{ name := "main", version := 0, kind := .text, size := 8, data := [1, 2, 3, 4, 5, 6, 7, 8],
       relocations := [.pending 0 4 .call (some 22) 0xebfffffe, .pending 4 4 .absolute (some 20) 1],
       reachable := true },
     { name := "library", version := 0, kind := .data, size := 16, reachable := true },
     { name := "part", version := 0, kind := .data, size := 8, outer := some ⟨20, 4⟩,
       reachable := true },
     { name := "entry", version := 0, kind := .data, size := 4, outer := some ⟨21, 4⟩,
       reachable := true }] : List Symbol)⟩

/-- Addresses that a host linker may give to sections. -/
def hostBase (id : SectionId) : Nat := 32768 + 4096 * id

theorem hostWord_of_deferred_sample :
    hostSample.HasSentinels ∧ isCandidate (hostSample.get 20) = true ∧
      ∃ l t₁ t₂ hosts, compute hostSample false 1 = .ok (l, t₁) ∧
        apply t₁ l true = .ok (t₂, hosts) ∧ t₁.outermost 22 = (20, 8) ∧
        (t₂.get 19).data.slice? 0 4 = some (Bytes.ofWord 0xeb000000) ∧
        ⟨19, 0, Elf.RelocationType.call, 20⟩ ∈ hosts ∧
        ((rebase l hostBase t₁).get 19).value = some 32768 ∧
        ((rebase l hostBase t₁).get 20).value = some 57344 ∧
        ∃ v, valueOf ⟨l, false, none⟩ (rebase l hostBase t₁) 19
            (.pending 0 4 .call (some 22) 0xebfffffe) .call 22 0xebfffffe
              ⟨.call, "", "", 0⟩ = .ok v ∧
          hostWord? Elf.RelocationType.call (.ofNat 32 32768) (.ofNat 32 57344) 0xeb000000 =
            some (v.setWidth 32) := by
  have hs : hostSample.HasSentinels := by decide +kernel
  have hroot : isCandidate (hostSample.get 20) = true := by decide +kernel
  obtain ⟨l, t₁, hcompute, t₂, hosts, happly, hv, hrelocations, hdeferred, howner, hout, hplace,
      hsymbol⟩ : ∃ l t₁, compute hostSample false 1 = .ok (l, t₁) ∧
      ∃ t₂ hosts, apply t₁ l true = .ok (t₂, hosts) ∧
        (valueOf ⟨l, false, none⟩ (rebase l hostBase t₁) 19
          (.pending 0 4 .call (some 22) 0xebfffffe) .call 22 0xebfffffe ⟨.call, "", "", 0⟩).isOk ∧
        (t₁.get 19).relocations = [.pending 0 4 .call (some 22) 0xebfffffe,
          .pending 4 4 .absolute (some 20) 1] ∧
        (t₂.get 19).relocations[0]? = some ⟨0, 4, .deferred .call 20 0xeb000000⟩ ∧
        (t₁.get 19).value.isSome ∧ t₁.outermost 22 = (20, 8) ∧
        ((rebase l hostBase t₁).get 19).value = some 32768 ∧
        ((rebase l hostBase t₁).get 20).value = some 57344 := by
    decide +kernel
  have hr : (t₁.get 19).relocations[0]? = some (.pending 0 4 .call (some 22) 0xebfffffe) := by
    rw [hrelocations]
    rfl
  have hlater : ∀ j r', 0 < j → (t₁.get 19).relocations[j]? = some r' →
      ¬ Overlap (.pending 0 4 .call (some 22) 0xebfffffe) r' := by
    intro j r' hj hr'
    rw [hrelocations] at hr'
    rcases j with _ | _ | j
    · cases hj
    · cases hr'
      decide
    · cases hr'
  obtain ⟨-, -, -, -, hslice, type, htype, hhost, hbases⟩ :=
    hostWord_of_deferred hs hcompute happly hr rfl hdeferred howner (by decide +kernel) hroot
      (by decide +kernel)
  obtain rfl : Elf.RelocationType.call = type := Except.ok.inj htype
  obtain ⟨place, symbol, hplace', hsymbol', hagree⟩ := hbases hostBase
  obtain rfl : place = 32768 := Option.some.inj (hplace'.symm.trans hplace)
  obtain rfl : symbol = 57344 := Option.some.inj (hsymbol'.symm.trans hsymbol)
  have hcall : 4 ∣ (t₁.outermost 22).2 := by
    rw [hout]
    decide
  refine ⟨hs, hroot, l, t₁, t₂, hosts, hcompute, happly, hout, hslice hlater, hhost, hplace,
    hsymbol, ?_⟩
  rcases hagree (fun _ => ⟨hcall, by decide⟩) _ _ with hvalue | ⟨-, far, -, hfar⟩
  · exact hvalue
  · rw [hfar] at hv
    cases hv

end ArmLink.Resolve
