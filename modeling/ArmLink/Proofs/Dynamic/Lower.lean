import ArmLink.Dynamic.Lower
import ArmLink.Proofs.Dynamic.Tables
import ArmLink.Proofs.Relocation

/-!
# What lowering leaves behind

Relocations are lowered one after the other, and the tables of the dynamic loader grow meanwhile.
Since nothing that lowering reads of other symbols goes away, the loops can be read as one
statement about each relocation.
-/

namespace ArmLink.DynamicTables

open SymbolTable List
open Relocation (Kind Outcome)

variable {owners owners' ids : List SymbolId} {s s' s'' : Lowering} {owner id target : SymbolId}
  {external : Bool} {d? : Option DynamicTables} {t : SymbolTable} {r : Relocation SymbolId}
  {d : DynamicTables} {done rs : List (Relocation SymbolId)} {kind : Kind} {addend : Word64}

def tables (d? : Option DynamicTables) : List SymbolId := (d?.map all).getD []

/-- A symbol without its relocations. -/
def unrelocated (s : Symbol) : Symbol := { s with relocations := [] }

/-- From `s` to `s'` relocations of the `owners` were lowered. -/
inductive Evolves (owners : List SymbolId) : Lowering → Lowering → Prop
  | static {t t' : SymbolTable} (hkeeps : Keeps unrelocated t t')
      (hrelocations : ∀ id, id ∉ owners → (t'.get id).relocations = (t.get id).relocations) :
      Evolves owners (none, t) (none, t')
  | dynamic {d d' : DynamicTables} {t t' : SymbolTable} (hgrows : Grows owners d t d' t') :
      Evolves owners (some d, t) (some d', t')

namespace Evolves

theorem refl (owners : List SymbolId) (s : Lowering) : Evolves owners s s := by
  obtain ⟨d?, t⟩ := s
  cases d? with
  | none => exact .static (.refl t) fun _ _ => rfl
  | some d => exact .dynamic (.refl owners d t)

theorem trans (h : Evolves owners s s') (h' : Evolves owners s' s'') : Evolves owners s s'' := by
  cases h with
  | static hkeeps hrelocations =>
    cases h' with
    | static hkeeps' hrelocations' =>
      exact .static (hkeeps.trans hkeeps') fun id hid =>
        (hrelocations' id hid).trans (hrelocations id hid)
  | dynamic hgrows =>
    cases h' with
    | dynamic hgrows' => exact .dynamic (hgrows.trans hgrows')

theorem mono (h : Evolves owners s s') (hsub : ∀ id ∈ owners, id ∈ owners') :
    Evolves owners' s s' := by
  cases h with
  | static hkeeps hrelocations =>
    exact .static hkeeps fun id hid => hrelocations id (mt (hsub id) hid)
  | dynamic hgrows => exact .dynamic (hgrows.mono hsub)

theorem replace (h : Evolves owners s (d?, t)) (howner : owner ∈ owners)
    (relocations : List (Relocation SymbolId)) :
    Evolves owners s (d?, t.modify owner fun s => { s with relocations }) := by
  cases h with
  | static hkeeps hrelocations =>
    refine .static (hkeeps.andModify rfl) fun id hid => ?_
    have hne : id ≠ owner := fun heq => hid (heq ▸ howner)
    rw [get_modify_ne hne, hrelocations id hid]
  | dynamic hgrows => exact .dynamic (hgrows.replace howner relocations)

variable (h : Evolves owners s s')
include h

theorem tables : tables s'.1 = tables s.1 := by
  cases h with
  | static => rfl
  | dynamic hgrows => exact hgrows.all

theorem isSome : s'.1.isSome = s.1.isSome := by
  cases h <;> rfl

theorem shell : Keeps shell s.2 s'.2 := by
  cases h with
  | static hkeeps => exact hkeeps.map DynamicTables.shell
  | dynamic hgrows => exact hgrows.shell

theorem relocations (hid : id ∉ DynamicTables.tables s.1) (howner : id ∉ owners) :
    (s'.2.get id).relocations = (s.2.get id).relocations := by
  cases h with
  | static hkeeps hrelocations => exact hrelocations id howner
  | dynamic hgrows => exact hgrows.relocations id hid howner

theorem dynamic_of_eq {d' : DynamicTables} (hd' : s'.1 = some d') :
    ∃ d, s.1 = some d ∧ Grows owners d s.2 d' s'.2 := by
  cases h with
  | static => cases hd'
  | dynamic hgrows =>
    cases hd'
    exact ⟨_, rfl, hgrows⟩

end Evolves

/-! ## One relocation -/

/-- The ways in which a relocation of `owner` can be lowered. -/
inductive Way (t : SymbolTable) (owner : SymbolId) (r : Relocation SymbolId) :
    Option DynamicTables → Lowered → Prop
  | gone {d? : Option DynamicTables} : Way t owner r d? ⟨none, d?, t⟩
  /-- a relocation that is not raw, and with tables does not refer to an import, stays -/
  | kept {d? : Option DynamicTables}
      (hraw : ∀ type target addend, r.outcome ≠ .pending (.elf type) target addend)
      (himport : d?.isSome = true → ∀ kind target addend,
        r.outcome = .pending kind (some target) addend → (t.get target).isImport = false) :
      Way t owner r d? ⟨some r.outcome, d?, t⟩
  /-- a raw relocation becomes one of the linker's own; two types may then refer to an import -/
  | own {d? : Option DynamicTables} {type : Nat} {target : SymbolId} {addend addend' : Word64}
      {kind : Kind} (hr : r.outcome = .pending (.elf type) (some target) addend)
      (hkind : ∀ type, kind ≠ .elf type)
      (himport : d?.isSome = true → (t.get target).isImport = true →
        Arm.Machine.classify? type = some .pcRelative ∧ kind = .pcRelative ∨
        Arm.Machine.classify? type = some .gotRelative ∧ kind = .gotOffset) :
      Way t owner r d? ⟨some (.pending kind (some target) addend'), d?, t⟩
  | base {d : DynamicTables} {addend : Word64} :
      Way t owner r (some d) ⟨some (.pending .pcRelative (some d.got) addend), some d, t⟩
  | stub {d : DynamicTables} {target : SymbolId} {addend : Word64} {kind : Kind}
      (htarget : r.target? = some target) (himport : (t.get target).isImport = true)
      (hkind : ∀ type, kind ≠ .elf type) :
      Way t owner r (some d) ⟨some (.pending kind (some (d.ensureStub t target).2.1.plt) addend),
        some (d.ensureStub t target).2.1, (d.ensureStub t target).2.2⟩
  | slot {d : DynamicTables} {target : SymbolId} {outcome : Outcome SymbolId}
      (htarget : r.target? = some target) (houtcome : (∃ value, outcome = .constant value) ∨
        ∃ addend, outcome = .pending .pcRelative (some (d.ensureSlot t target).2.1.got) addend) :
      Way t owner r (some d) ⟨some outcome, some (d.ensureSlot t target).2.1,
        (d.ensureSlot t target).2.2⟩
  /-- the loader is asked to patch a word with the address of an import -/
  | patch {d : DynamicTables} {target : SymbolId} {addend : Word64} {index : Nat}
      (hr : r.outcome = .pending .absolute (some target) addend)
      (hwritable : (t.get owner).kind.isWritable = true) (hsize : r.size = 4) :
      Way t owner r (some d) ⟨some (.constant addend),
        some ((d.ensureIndex t target).2.1.addRelocation (d.ensureIndex t target).2.2 owner r.offset
          index Elf.RelocationType.globDat).1,
        ((d.ensureIndex t target).2.1.addRelocation (d.ensureIndex t target).2.2 owner r.offset
          index Elf.RelocationType.globDat).2⟩

section Way

variable {lowered : Lowered}

theorem way_lowerRaw {type : Nat} (hr : r.outcome = .pending (.elf type) (some target) addend)
    (h : lowerRaw external d? t owner type target addend = .ok lowered) :
    Way t owner r d? lowered := by
  have htarget : r.target? = some target := by simp only [Relocation.target?, hr]
  have hown (kind : Kind) (hkind : ∀ type, kind ≠ .elf type) (addend' : Word64)
      (himport : d?.isSome = true → (t.get target).isImport = false) :
      Way t owner r d? ⟨some (.pending kind (some target) addend'), d?, t⟩ :=
    .own hr hkind fun hsome htrue =>
      absurd ((himport hsome).symm.trans htrue) Bool.false_ne_true
  unfold lowerRaw at h
  split at h
  · cases h
  · cases h
    exact .gone
  · split at h
    · split at h
      · rename_i himport
        cases h
        exact .stub htarget himport nofun
      · rename_i himport
        cases h
        exact hown .call nofun addend fun _ => Bool.eq_false_iff.mpr himport
    · cases h
      exact hown .call nofun addend nofun
  · split at h
    · cases h
      exact .slot htarget (.inl ⟨_, rfl⟩)
    · cases h
  · split at h
    · cases h
      exact .slot htarget (.inr ⟨_, rfl⟩)
    · cases h
  · rename_i hclass
    split at h
    · cases h
      exact .own hr nofun fun _ _ => .inr ⟨hclass, rfl⟩
    · cases h
  · split at h
    · cases h
      exact .base
    · cases h
  · rename_i hclass
    cases h
    exact .own hr nofun fun _ _ => .inl ⟨hclass, rfl⟩
  · split at h
    · cases h
    · rename_i himport
      cases h
      refine hown .absolute absolute_ne_elf addend fun hsome => ?_
      simpa only [hsome, Bool.and_true, Bool.not_eq_true] using himport

theorem way_lowerImport (hr : r.outcome = .pending kind (some target) addend)
    (himport : (t.get target).isImport = true)
    (h : d.lowerImport t owner r kind target addend = .ok lowered) :
    Way t owner r (some d) lowered := by
  have htarget : r.target? = some target := by simp only [Relocation.target?, hr]
  unfold lowerImport at h
  split at h
  · cases h
    exact .stub htarget himport nofun
  · cases h
    exact .stub htarget himport nofun
  · split at h
    · rename_i hallowed
      simp only [Bool.and_eq_true, decide_eq_true_eq] at hallowed
      cases h
      exact .patch hr hallowed.1 hallowed.2
    · cases h
  · cases h

/-- **Ways.** A relocation that can be lowered is lowered in one of these ways. -/
theorem way_of_lowerRelocation (h : lowerRelocation external d? t owner r = .ok lowered) :
    Way t owner r d? lowered := by
  unfold lowerRelocation at h
  split at h
  · cases h
  · rename_i hr
    exact way_lowerRaw hr h
  · rename_i kind target addend hraw hr
    have hkept : ∀ type target addend, r.outcome ≠ .pending (.elf type) target addend := by
      rw [hr]
      rintro type _ _ heq
      cases heq
      exact hraw type rfl
    split at h
    · split at h
      · rename_i himport
        exact way_lowerImport hr himport h
      · rename_i himport
        cases h
        refine .kept hkept fun _ kind target addend heq => ?_
        cases hr.symm.trans heq
        exact Bool.eq_false_iff.mpr himport
    · cases h
      exact .kept hkept nofun
  · rename_i hother
    cases h
    refine .kept (fun type target addend heq => ?_) fun _ kind target addend heq =>
      absurd heq (hother kind target addend)
    cases target <;> simp_all

/-- Lowering a relocation makes entries in the tables, and changes nothing else. -/
theorem evolves_lowerRelocation (h : lowerRelocation external d? t owner r = .ok lowered) :
    Evolves owners (d?, t) (lowered.tables, lowered.symbols) := by
  cases way_of_lowerRelocation h with
  | gone | kept | own | base => exact .refl owners _
  | stub => exact .dynamic (grows_ensureStub owners ..)
  | slot => exact .dynamic (grows_ensureSlot owners ..)
  | patch => exact .dynamic ((grows_ensureIndex owners ..).trans (grows_addRelocation owners ..))

/-- Lowering leaves nothing to the host linker. -/
theorem isDeferred_lowerRelocation (hopen : r.isDeferred = false)
    (h : lowerRelocation external d? t owner r = .ok lowered) :
    ∀ outcome ∈ lowered.outcome, { r with outcome }.isDeferred = false := by
  intro outcome houtcome
  cases way_of_lowerRelocation h with
  | gone => cases houtcome
  | kept =>
    cases houtcome
    exact hopen
  | own | base | stub | patch =>
    cases houtcome
    rfl
  | slot _ hslot =>
    cases houtcome
    obtain ⟨_, rfl⟩ | ⟨_, rfl⟩ := hslot <;> rfl

end Way

/-- Whether relocations of a kind are branches. -/
def isCall : Kind → Bool
  | .call => true
  | .elf type => Arm.Machine.classify? type = some .call
  | _ => false

/-- What a branch is lowered to, of whichever kind. -/
def lowerCall (d? : Option DynamicTables) (t : SymbolTable) (target : SymbolId) (addend : Word64) :
    Lowered :=
  match d? with
  | some d =>
    if (t.get target).isImport then
      let (stub, d, t) := d.ensureStub t target
      ⟨some (.pending .call (some d.plt) (branchToStub addend stub)), some d, t⟩
    else ⟨some (.pending .call (some target) addend), some d, t⟩
  | none => ⟨some (.pending .call (some target) addend), none, t⟩

theorem lowerRelocation_call (hr : r.outcome = .pending kind (some target) addend)
    (hkind : isCall kind = true) :
    lowerRelocation external d? t owner r = .ok (lowerCall d? t target addend) := by
  unfold lowerRelocation lowerCall
  rw [hr]
  cases kind with
  | call =>
    cases d? with
    | none => rfl
    | some d =>
      dsimp only
      split <;> rfl
  | elf type =>
    have hclass : Arm.Machine.classify? type = some .call := of_decide_eq_true hkind
    dsimp only
    unfold lowerRaw
    rw [hclass]
    cases d? with
    | none => rfl
    | some d =>
      dsimp only
      split <;> rfl
  | _ => cases hkind

/-- There are tables, in which an import has a stub. -/
structure HasStub (s : Lowering) (d : DynamicTables) (target : SymbolId) (stub : Nat) : Prop where
  tables : s.1 = some d
  isImport : (s.2.get target).isImport = true
  offset : (s.2.get target).pltOffset = some stub

theorem hasStub_ensureStub (himport : (t.get target).isImport = true) :
    HasStub (some (d.ensureStub t target).2.1, (d.ensureStub t target).2.2)
      (d.ensureStub t target).2.1 target (d.ensureStub t target).1 := by
  have hlt : target < t.size := lt_size_of_get (P := (·.isImport = true)) himport nofun
  have hkeeps : Keeps Symbol.isImport t (d.ensureStub t target).2.2 :=
    (grows_ensureStub [] d t target).shell.map Symbol.isImport
  exact ⟨rfl, (hkeeps.2 target).trans himport, pltOffset_ensureStub d hlt⟩

/-- A stub stays where it is while the tables grow. -/
theorem HasStub.evolves {stub : Nat} (h : HasStub s d target stub)
    (hevolves : Evolves owners s s') : ∃ d', HasStub s' d' target stub ∧ d'.plt = d.plt := by
  have himports := hevolves.shell.read Symbol.isImport fun _ => rfl
  obtain ⟨hd, himport, hstub⟩ := h
  cases hevolves with
  | static => cases hd
  | dynamic hgrows =>
    cases hd
    exact ⟨_, ⟨rfl, (himports.2 target).trans himport, hgrows.stub _ _ hstub⟩,
      plt_eq_of_all hgrows.all⟩

/-- Where a branch to `target` is sent: to the target itself, or to the stub of an import if there
are tables. -/
inductive Sent (s : Lowering) (target : SymbolId) (addend : Word64) : Outcome SymbolId → Prop
  | direct (h : s.1 = none ∨ (s.2.get target).isImport = false) :
      Sent s target addend (.pending .call (some target) addend)
  | stub {d : DynamicTables} {stub : Nat} (hd : s.1 = some d)
      (himport : (s.2.get target).isImport = true)
      (hstub : (s.2.get target).pltOffset = some stub) :
      Sent s target addend (.pending .call (some d.plt) (branchToStub addend stub))

theorem sent_lowerCall (d? : Option DynamicTables) (t : SymbolTable) (target : SymbolId)
    (addend : Word64) : ∃ outcome, (lowerCall d? t target addend).outcome = some outcome ∧
      Sent ((lowerCall d? t target addend).tables, (lowerCall d? t target addend).symbols) target
        addend outcome := by
  unfold lowerCall
  cases d? with
  | none => exact ⟨_, rfl, .direct (.inl rfl)⟩
  | some d =>
    dsimp only
    split
    · rename_i himport
      have hstub := hasStub_ensureStub (d := d) himport
      exact ⟨_, rfl, .stub hstub.tables hstub.isImport hstub.offset⟩
    · rename_i himport
      exact ⟨_, rfl, .direct (.inr (Bool.eq_false_iff.mpr himport))⟩

/-- A branch that was sent stays right while the tables grow. -/
theorem Sent.evolves {outcome : Outcome SymbolId} (h : Sent s target addend outcome)
    (hevolves : Evolves owners s s') : Sent s' target addend outcome := by
  have himports := hevolves.shell.read Symbol.isImport fun _ => rfl
  cases h with
  | direct hdirect =>
    refine .direct (hdirect.imp (fun hnone => ?_) (himports.2 target).trans)
    cases hevolves with
    | static => rfl
    | dynamic => cases hnone
  | stub hd himport hstub =>
    obtain ⟨d', hstub', hplt⟩ := HasStub.evolves ⟨hd, himport, hstub⟩ hevolves
    rw [← hplt]
    exact .stub hstub'.tables hstub'.isImport hstub'.offset

/-! ## The relocations of a symbol -/

/-- Somewhere on the way from `s` to `s'` a relocation of `owner` was lowered to `outcome`. -/
def LoweredBetween (external : Bool) (owners : List SymbolId) (owner : SymbolId) (s s' : Lowering)
    (r : Relocation SymbolId) (outcome : Option (Outcome SymbolId)) : Prop :=
  ∃ (s₁ : Lowering) (lowered : Lowered), Evolves owners s s₁ ∧
    lowerRelocation external s₁.1 s₁.2 owner r = .ok lowered ∧ lowered.outcome = outcome ∧
    Evolves owners (lowered.tables, lowered.symbols) s'

/-- What is left of a relocation. -/
def remains (x : Relocation SymbolId × Option (Outcome SymbolId)) : Option (Relocation SymbolId) :=
  x.2.map fun outcome => { x.1 with outcome }

theorem LoweredBetween.widen {outcome : Option (Outcome SymbolId)} {s₀ s₁ : Lowering}
    (h : LoweredBetween external owners owner s s' r outcome) (hsub : ∀ id ∈ owners, id ∈ owners')
    (hbefore : Evolves owners' s₀ s) (hafter : Evolves owners' s' s₁) :
    LoweredBetween external owners' owner s₀ s₁ r outcome := by
  obtain ⟨s₂, lowered, hfirst, hlower, houtcome, hlast⟩ := h
  exact ⟨s₂, lowered, hbefore.trans (hfirst.mono hsub), hlower, houtcome,
    (hlast.mono hsub).trans hafter⟩

/-- **Branches.** A branch is sent to its target, or to the stub of an import. -/
theorem LoweredBetween.call {outcome? : Option (Outcome SymbolId)}
    (h : LoweredBetween external owners owner s s' r outcome?)
    (hr : r.outcome = .pending kind (some target) addend) (hkind : isCall kind = true) :
    ∃ outcome, outcome? = some outcome ∧ Sent s' target addend outcome := by
  obtain ⟨s₁, lowered, -, hlower, rfl, hlast⟩ := h
  rw [lowerRelocation_call hr hkind] at hlower
  cases hlower
  obtain ⟨outcome, houtcome, hsent⟩ := sent_lowerCall s₁.1 s₁.2 target addend
  exact ⟨outcome, houtcome, hsent.evolves hlast⟩

/-- The loop over the relocations of a symbol, from the point where `done` are left. -/
theorem lowerRelocations_ok (hlt : owner < s.2.size)
    (h : lowerRelocations external owner done rs s = .ok s') :
    Evolves [owner] s s' ∧ ∃ lowered : List (Relocation SymbolId × Option (Outcome SymbolId)),
      lowered.map (·.1) = rs ∧ (s'.2.get owner).relocations = done ++ lowered.filterMap remains ∧
      ∀ x ∈ lowered, LoweredBetween external [owner] owner s s' x.1 x.2 := by
  induction rs generalizing done s with
  | nil =>
    cases h
    refine ⟨.replace (.refl [owner] _) mem_cons_self done, [], rfl, ?_, forall_mem_nil _⟩
    rw [get_modify_self hlt, filterMap_nil, append_nil]
  | cons r rs ih =>
    obtain ⟨d?, t⟩ := s
    rw [lowerRelocations] at h
    split at h
    · rename_i lowered hlower
      have hfirst : Evolves [owner] (d?, t) (lowered.tables, lowered.symbols) :=
        evolves_lowerRelocation hlower
      have hlt' : owner < lowered.symbols.size := hfirst.shell.1 ▸ hlt
      obtain ⟨hrest, more, hmap, hrelocations, hmore⟩ := ih hlt' h
      refine ⟨hfirst.trans hrest, (r, lowered.outcome) :: more, ?_, ?_, ?_⟩
      · rw [map_cons, hmap]
      · rw [hrelocations, append_assoc]
        congr 1
        cases lowered.outcome <;> rfl
      · refine forall_mem_cons.mpr ⟨?_, fun x hx => ?_⟩
        · exact ⟨(d?, t), lowered, .refl _ _, hlower, rfl, hrest⟩
        · exact (hmore x hx).widen (fun _ hid => hid) hfirst (.refl _ _)
    · cases h

/-! ## All symbols -/

/-- All relocations of a symbol were lowered on the way from `s` to `s'`. -/
def LoweredAt (external : Bool) (owners : List SymbolId) (s s' : Lowering) (owner : SymbolId) :
    Prop :=
  ∃ lowered : List (Relocation SymbolId × Option (Outcome SymbolId)),
    lowered.map (·.1) = (s.2.get owner).relocations ∧
    (s'.2.get owner).relocations = lowered.filterMap remains ∧
    ∀ x ∈ lowered, LoweredBetween external owners owner s s' x.1 x.2

variable (h : LoweredAt external owners s s' owner)
include h

theorem LoweredAt.site {i : Nat} (hr : (s.2.get owner).relocations[i]? = some r) :
    ∃ outcome before after, LoweredBetween external owners owner s s' r outcome ∧
      (s'.2.get owner).relocations = before ++ (remains (r, outcome)).toList ++ after ∧
      ∀ r' ∈ after, ∃ j r₁, i < j ∧ (s.2.get owner).relocations[j]? = some r₁ ∧
        r'.offset = r₁.offset ∧ r'.size = r₁.size := by
  obtain ⟨lowered, hmap, hrelocations, hlowered⟩ := h
  rw [← hmap, getElem?_map, Option.map_eq_some_iff] at hr
  obtain ⟨⟨r, outcome⟩, hx, rfl⟩ := hr
  obtain ⟨hi, hx⟩ := List.getElem?_eq_some_iff.mp hx
  have hsplit : lowered = lowered.take i ++ (r, outcome) :: lowered.drop (i + 1) := by
    rw [← hx, getElem_cons_drop, take_append_drop]
  refine ⟨outcome, (lowered.take i).filterMap remains, (lowered.drop (i + 1)).filterMap remains,
    hlowered _ (mem_of_getElem hx), ?_, fun r' hr' => ?_⟩
  · rw [hrelocations]
    conv => lhs; rw [hsplit]
    rw [filterMap_append, append_assoc]
    congr 1
    cases outcome <;> rfl
  · obtain ⟨⟨r₁, outcome₁⟩, hmem, hremains⟩ := mem_filterMap.mp hr'
    obtain ⟨outcome₁, rfl, rfl⟩ := Option.map_eq_some_iff.mp hremains
    obtain ⟨j, hj⟩ := mem_iff_getElem?.mp hmem
    rw [getElem?_drop] at hj
    refine ⟨i + 1 + j, r₁, by omega, ?_, rfl, rfl⟩
    rw [← hmap, getElem?_map, hj]
    rfl

/-- Nothing is left to the host linker when relocations are lowered. -/
theorem LoweredAt.isDeferred (hopen : ∀ r ∈ (s.2.get owner).relocations, r.isDeferred = false) :
    ∀ r ∈ (s'.2.get owner).relocations, r.isDeferred = false := by
  obtain ⟨lowered, hmap, hrelocations, hlowered⟩ := h
  intro r' hr'
  rw [hrelocations] at hr'
  obtain ⟨⟨r, outcome?⟩, hmem, hremains⟩ := mem_filterMap.mp hr'
  obtain ⟨outcome, rfl, rfl⟩ := Option.map_eq_some_iff.mp hremains
  obtain ⟨s₁, result, -, hlower, houtcome, -⟩ := hlowered _ hmem
  have hr : r ∈ (s.2.get owner).relocations := hmap ▸ mem_map_of_mem hmem
  exact isDeferred_lowerRelocation (hopen r hr) hlower outcome houtcome

omit h

/-- One symbol of the loop over all of them. -/
def lowerSymbol (external : Bool) (tables : List SymbolId) (s : Lowering) (id : SymbolId) :
    Except (Failure LowerError Lowering) Lowering :=
  if !(s.2.get id).reachable || (s.2.get id).relocations.isEmpty || tables.contains id then .ok s
  else lowerRelocations external id [] (s.2.get id).relocations s

theorem lower_eq :
    lower external d? t = t.ids.foldlM (lowerSymbol external (tables d?)) (d?, t) := rfl

theorem lowerSymbol_ok (hlt : id < s.2.size) (h : lowerSymbol external (tables s.1) s id = .ok s') :
    Evolves [id] s s' ∧ (id ∉ tables s.1 → (s.2.get id).reachable = true →
      LoweredAt external [id] s s' id) := by
  unfold lowerSymbol at h
  split at h
  · rename_i hskip
    cases h
    refine ⟨.refl _ _, fun htable hreach => ⟨[], ?_, ?_, forall_mem_nil _⟩⟩
    all_goals
      simp only [hreach, Bool.not_true, Bool.false_or, Bool.or_eq_true, contains_iff_mem,
        htable, or_false, List.isEmpty_iff] at hskip
      rw [hskip]
      rfl
  · obtain ⟨hevolves, lowered, hmap, hrelocations, hlowered⟩ := lowerRelocations_ok hlt h
    exact ⟨hevolves, fun _ _ => ⟨lowered, hmap, hrelocations, hlowered⟩⟩

theorem lowerSymbols_ok (hnodup : ids.Nodup) (hlt : ∀ id ∈ ids, id < s.2.size)
    (h : ids.foldlM (lowerSymbol external (tables s.1)) s = .ok s') :
    Evolves ids s s' ∧ ∀ id ∈ ids, id ∉ tables s.1 → (s.2.get id).reachable = true →
      LoweredAt external ids s s' id := by
  induction ids generalizing s with
  | nil =>
    cases h
    exact ⟨.refl [] _, forall_mem_nil _⟩
  | cons id ids ih =>
    obtain ⟨hid, hnodup⟩ := nodup_cons.mp hnodup
    obtain ⟨hltId, hltIds⟩ := forall_mem_cons.mp hlt
    obtain ⟨s₁, hfirst, hrest⟩ := bind_eq_ok.mp h
    obtain ⟨hevolves₁, hself⟩ := lowerSymbol_ok hltId hfirst
    rw [← hevolves₁.tables] at hrest
    have hlt₁ : ∀ j ∈ ids, j < s₁.2.size := fun j hj => hevolves₁.shell.1 ▸ hltIds j hj
    obtain ⟨hevolves₂, hothers⟩ := ih hnodup hlt₁ hrest
    have hfirst' : Evolves (id :: ids) s s₁ := hevolves₁.mono fun j hj =>
      mem_cons.mpr (.inl (mem_singleton.mp hj))
    have hrest' : Evolves (id :: ids) s₁ s' := hevolves₂.mono fun j hj => mem_cons_of_mem id hj
    refine ⟨hfirst'.trans hrest', forall_mem_cons.mpr ⟨fun htable hreach => ?_, ?_⟩⟩
    · -- the first symbol is not touched again
      obtain ⟨lowered, hmap, hrelocations, hlowered⟩ := hself htable hreach
      refine ⟨lowered, hmap, ?_, fun x hx => (hlowered x hx).widen ?_ (.refl _ _) hrest'⟩
      · rw [hevolves₂.relocations (hevolves₁.tables ▸ htable) hid, hrelocations]
      · exact fun j hj => mem_cons.mpr (.inl (mem_singleton.mp hj))
    · -- the other ones have not been touched before
      intro j hj htable hreach
      have hne : j ∉ [id] := fun heq => hid (mem_singleton.mp heq ▸ hj)
      have hreach₁ : (s₁.2.get j).reachable = true :=
        ((hevolves₁.shell.map Symbol.reachable).2 j).trans hreach
      obtain ⟨lowered, hmap, hrelocations, hlowered⟩ :=
        hothers j hj (hevolves₁.tables ▸ htable) hreach₁
      refine ⟨lowered, ?_, hrelocations, fun x hx => (hlowered x hx).widen ?_ hfirst' (.refl _ _)⟩
      · rw [hmap, hevolves₁.relocations htable hne]
      · exact fun k hk => mem_cons_of_mem id hk

/-- **Lowered everywhere.** The relocations of every reachable symbol are lowered, the tables
apart. -/
theorem lower_ok (h : lower external d? t = .ok s') :
    Evolves t.ids (d?, t) s' ∧ ∀ id, id ∉ tables d? → (t.get id).reachable = true →
      LoweredAt external t.ids (d?, t) s' id := by
  obtain ⟨hevolves, hlowered⟩ :=
    lowerSymbols_ok (s := (d?, t)) nodup_range (fun id hid => mem_ids.mp hid) h
  refine ⟨hevolves, fun id htable hreach => hlowered id ?_ htable hreach⟩
  exact mem_ids.mpr (lt_size_of_get (P := (·.reachable = true)) hreach nofun)

/-! ## What lowering preserves -/

section Induction

variable {P : Lowering → Prop}

theorem lowerRelocations_induction (hs : P s)
    (hstep : ∀ s r lowered, r ∈ rs → P s → lowerRelocation external s.1 s.2 owner r = .ok lowered →
      P (lowered.tables, lowered.symbols))
    (hreplace : ∀ s relocations, P s → P (s.1, s.2.modify owner fun s => { s with relocations }))
    (h : lowerRelocations external owner done rs s = .ok s') : P s' := by
  induction rs generalizing done s with
  | nil =>
    cases h
    exact hreplace s done hs
  | cons r rs ih =>
    rw [lowerRelocations] at h
    split at h
    · rename_i lowered hlower
      refine ih (hstep s r lowered mem_cons_self hs hlower) ?_ h
      exact fun s r lowered hr => hstep s r lowered (mem_cons_of_mem _ hr)
    · cases h

theorem lowerSymbols_induction {done : List SymbolId} (hnodup : ids.Nodup)
    (hnew : ∀ id ∈ ids, id ∉ done) (hevolves : Evolves done (d?, t) s) (hs : P s)
    (hstep : ∀ s owner r lowered, owner ∉ tables d? → (t.get owner).reachable = true →
      r ∈ (t.get owner).relocations → Keeps shell t s.2 → P s →
      lowerRelocation external s.1 s.2 owner r = .ok lowered → P (lowered.tables, lowered.symbols))
    (hreplace : ∀ s owner relocations, owner ∉ tables s.1 → P s →
      P (s.1, s.2.modify owner fun s => { s with relocations }))
    (h : ids.foldlM (lowerSymbol external (tables d?)) s = .ok s') : P s' := by
  induction ids generalizing done s with
  | nil =>
    cases h
    exact hs
  | cons id ids ih =>
    obtain ⟨hid, hnodup⟩ := nodup_cons.mp hnodup
    obtain ⟨hnewId, hnew⟩ := forall_mem_cons.mp hnew
    obtain ⟨s₁, hfirst, hrest⟩ := bind_eq_ok.mp h
    obtain ⟨hevolves₁, hs₁⟩ : Evolves (id :: done) (d?, t) s₁ ∧ P s₁ := by
      have hwider : Evolves (id :: done) (d?, t) s :=
        hevolves.mono fun _ hj => mem_cons_of_mem id hj
      simp only [lowerSymbol] at hfirst
      split at hfirst
      · cases hfirst
        exact ⟨hwider, hs⟩
      · -- the symbol is no table, and its relocations are those that it had at the start
        rename_i hskip
        simp only [Bool.or_eq_true, Bool.not_eq_true', contains_iff_mem, not_or] at hskip
        obtain ⟨⟨hreach, -⟩, htable⟩ := hskip
        have hreach : (t.get id).reachable = true :=
          ((hevolves.shell.map Symbol.reachable).2 id).symm.trans (Bool.not_eq_false _ ▸ hreach)
        have hrelocations : (s.2.get id).relocations = (t.get id).relocations :=
          hevolves.relocations htable hnewId
        refine lowerRelocations_induction (P := fun s => Evolves (id :: done) (d?, t) s ∧ P s)
          ⟨hwider, hs⟩ (fun s r lowered hr hs hlower => ?_) (fun s relocations hs => ?_) hfirst
        · refine ⟨hs.1.trans (evolves_lowerRelocation hlower), ?_⟩
          exact hstep s id r lowered htable hreach (hrelocations ▸ hr) hs.1.shell hs.2 hlower
        · refine ⟨hs.1.replace mem_cons_self relocations, hreplace s id relocations ?_ hs.2⟩
          rw [hs.1.tables]
          exact htable
    refine ih hnodup (fun j hj hmem => ?_) hevolves₁ hs₁ hrest
    rcases mem_cons.mp hmem with rfl | hmem
    · exact hid hj
    · exact hnew j hj hmem

/-- **Induction.** What lowering one relocation of a reachable symbol preserves, and replacing
relocations of symbols that are no tables, holds when all relocations were lowered. -/
theorem lower_induction (hs : P (d?, t))
    (hstep : ∀ s owner r lowered, owner ∉ tables d? → (t.get owner).reachable = true →
      r ∈ (t.get owner).relocations → Keeps shell t s.2 → P s →
      lowerRelocation external s.1 s.2 owner r = .ok lowered → P (lowered.tables, lowered.symbols))
    (hreplace : ∀ s owner relocations, owner ∉ tables s.1 → P s →
      P (s.1, s.2.modify owner fun s => { s with relocations }))
    (h : lower external d? t = .ok s') : P s' := by
  exact lowerSymbols_induction nodup_range (fun _ _ => not_mem_nil) (.refl [] _) hs hstep
    hreplace h

end Induction

end ArmLink.DynamicTables
