import ArmLink.Proofs.Dynamic.Operations

/-!
# What lowering leaves to resolution

Lowering leaves no raw relocation behind. With tables for the dynamic loader it also takes care of
references to imports, but for two types of raw relocations: the distance to an import, and its
distance from the global offset table, become relocations of the linker's own that still refer to
the import.
-/

namespace ArmLink.DynamicTables

open SymbolTable
open Relocation (Kind Outcome)

variable {external : Bool} {d? : Option DynamicTables} {d : DynamicTables} {t : SymbolTable}
  {owner : SymbolId} {r : Relocation SymbolId} {lowered : Lowered} {s' : Lowering}

/-- The tables were made, and any number of requests were made to them. -/
def Requested (d : DynamicTables) (t : SymbolTable) : Prop :=
  ∃ t₀ d₁ t₁ calls, (∀ id, Fresh (t₀.get id)) ∧ setup t₀ = .ok (d₁, t₁) ∧
    (∀ call ∈ calls, Call.Valid t₁ call) ∧ run calls (d₁, t₁) = (d, t)

theorem Requested.sound {q : SymbolId → Nat → Prop} (h : Requested d t) : Sound q [] d t := by
  obtain ⟨t₀, d₁, t₁, calls, hfresh, hsetup, hvalid, hrun⟩ := h
  have hsound := (sound_of_setup hfresh hsetup).run (q := q) hvalid
  rwa [hrun] at hsound

/-! ## One relocation -/

/-- The kind to which a raw relocation of a type is lowered although its target is an import. -/
def Slipped (type : Nat) (kind : Kind) : Prop :=
  type = Elf.RelocationType.rel32 ∧ kind = .pcRelative ∨
    type = Elf.RelocationType.gotOff32 ∧ kind = .gotOffset

theorem slipped_of_classify? {type : Nat} {kind : Kind}
    (h : Arm.Machine.classify? type = some .pcRelative ∧ kind = .pcRelative ∨
      Arm.Machine.classify? type = some .gotRelative ∧ kind = .gotOffset) : Slipped type kind := by
  simp only [Arm.Machine.classify?] at h
  grind [Slipped]

/-- An outcome that a relocation is lowered to: it is not raw, and with tables it does not refer to
an import unless a raw relocation slipped through. -/
structure Lowers (dynamic : Bool) (t : SymbolTable) (r : Relocation SymbolId)
    (outcome : Outcome SymbolId) : Prop where
  raw : ∀ type target addend, outcome ≠ .pending (.elf type) target addend
  imports : dynamic = true → ∀ kind target addend,
    outcome = .pending kind (some target) addend → (t.get target).isImport = true →
    ∃ type addend', r.outcome = .pending (.elf type) (some target) addend' ∧ Slipped type kind

namespace Lowers

variable {dynamic : Bool} {kind : Kind} {target : SymbolId} {addend : Word64}

theorem own (hkind : ∀ type, kind ≠ .elf type)
    (himport : dynamic = true → (t.get target).isImport = true →
      ∃ type addend', r.outcome = .pending (.elf type) (some target) addend' ∧ Slipped type kind) :
    Lowers dynamic t r (.pending kind (some target) addend) := by
  constructor
  · rintro type target' addend' heq
    cases heq
    exact hkind type rfl
  · rintro hdynamic kind' target' addend' heq htarget
    cases heq
    exact himport hdynamic htarget

/-- An outcome of one of the linker's own kinds, whose target is no import. -/
theorem clean (hkind : ∀ type, kind ≠ .elf type) (htarget : (t.get target).isImport = false) :
    Lowers dynamic t r (.pending kind (some target) addend) := by
  refine own hkind fun _ himport => ?_
  cases htarget.symm.trans himport

theorem constant (value : Word64) : Lowers dynamic t r (.constant value) :=
  ⟨nofun, nofun⟩

end Lowers

/-- Lowering a relocation takes care of it, but for raw ones that slip through. -/
theorem lowers_lowerRelocation {outcome : Outcome SymbolId}
    (htables : ∀ id ∈ tables d?, (t.get id).isImport = false)
    (h : lowerRelocation external d? t owner r = .ok lowered)
    (houtcome : lowered.outcome = some outcome) : Lowers d?.isSome t r outcome := by
  have hway := way_of_lowerRelocation h
  cases hway with
  | gone => cases houtcome
  | kept hraw himport =>
    cases houtcome
    refine ⟨hraw, fun hdynamic kind target addend heq htarget => ?_⟩
    cases (himport hdynamic kind target addend heq).symm.trans htarget
  | own hr hkind himport =>
    cases houtcome
    exact .own hkind fun hdynamic htarget =>
      ⟨_, _, hr, slipped_of_classify? (himport hdynamic htarget)⟩
  | @base d =>
    cases houtcome
    exact .clean nofun (htables d.got (by simp [tables, all]))
  | @stub d target _ _ _ _ hkind =>
    cases houtcome
    refine .clean hkind ?_
    rw [plt_eq_of_all (grows_ensureStub [] d t target).all]
    exact htables d.plt d.plt_mem_all
  | @slot d target _ _ hslot =>
    cases houtcome
    obtain ⟨value, rfl⟩ | ⟨addend, rfl⟩ := hslot
    · exact .constant value
    · refine .clean nofun ?_
      rw [got_eq_of_all (grows_ensureSlot [] d t target).all]
      exact htables d.got (by simp [tables, all])
  | patch =>
    cases houtcome
    exact .constant _

/-! ## All relocations -/

/-- A raw relocation of a symbol slips through: once lowered, it is of the given kind and still
refers to its target. -/
def Slips (t : SymbolTable) (owner : SymbolId) (kind : Kind) (target : SymbolId) : Prop :=
  ∃ r ∈ (t.get owner).relocations, ∃ type addend,
    r.outcome = .pending (.elf type) (some target) addend ∧ Slipped type kind

/-- From `t` to `t'` the relocations of all reachable symbols were lowered. -/
structure Complete (dynamic : Bool) (t t' : SymbolTable) : Prop where
  raw : ∀ id, (t.get id).reachable = true → ∀ r ∈ (t'.get id).relocations, ∀ type target addend,
    r.outcome ≠ .pending (.elf type) target addend
  imports : dynamic = true → ∀ id, (t.get id).reachable = true → ∀ r ∈ (t'.get id).relocations,
    ∀ kind target addend, r.outcome = .pending kind (some target) addend →
    (t'.get target).isImport = true → Slips t id kind target

theorem LoweredAt.lowers {owners : List SymbolId} {s s' : Lowering}
    (h : LoweredAt external owners s s' owner)
    (htables : ∀ id ∈ tables s.1, (s.2.get id).isImport = false)
    {r' : Relocation SymbolId} (hr' : r' ∈ (s'.2.get owner).relocations) :
    ∃ r ∈ (s.2.get owner).relocations, Lowers s.1.isSome s.2 r r'.outcome := by
  obtain ⟨lowered, hmap, hrelocations, hlowered⟩ := h
  rw [hrelocations] at hr'
  obtain ⟨⟨r, outcome⟩, hmem, hremains⟩ := List.mem_filterMap.mp hr'
  obtain ⟨outcome, rfl, rfl⟩ := Option.map_eq_some_iff.mp hremains
  refine ⟨r, hmap ▸ List.mem_map_of_mem hmem, ?_⟩
  obtain ⟨s₁, result, hbefore, hlower, houtcome, -⟩ := hlowered _ hmem
  have himport := (hbefore.shell.read Symbol.isImport fun _ => rfl).2
  have htables₁ : ∀ id ∈ tables s₁.1, (s₁.2.get id).isImport = false := by
    intro id hid
    rw [himport]
    exact htables id (hbefore.tables ▸ hid)
  obtain ⟨hraw, himports⟩ := lowers_lowerRelocation htables₁ hlower houtcome
  refine ⟨hraw, fun hdynamic kind target addend heq htarget => ?_⟩
  exact himports (hbefore.isSome.trans hdynamic) kind target addend heq
    ((himport target).trans htarget)

/-- **Complete.** Once lowering has succeeded, no raw relocation is left, and with tables for which
requests were made, references to imports have slipped through. -/
theorem complete_of_lower (hd : ∀ d, d? = some d → Requested d t)
    (h : lower external d? t = .ok s') : Complete d?.isSome t s'.2 := by
  obtain ⟨hevolves, hlowered⟩ := lower_ok h
  -- nothing is said here about the words that the loader is asked to patch
  have hsound : SoundLowering (fun _ _ => True) [] (d?, t) := fun d heq => (hd d heq).sound
  have htables : ∀ id ∈ tables d?, (t.get id).isImport = false := by
    cases d? with
    | none => exact nofun
    | some d => exact fun id hid => (hsound d rfl).isImport_table hid
  -- relocations of tables refer to what has a place
  have hclean : ∀ id ∈ tables d?, ∀ r ∈ (s'.2.get id).relocations, Clean s'.2 r := by
    intro id hid r hr
    rw [← hevolves.tables] at hid
    have hsound' := soundLowering_lower hsound (fun _ _ _ _ => trivial) h
    obtain ⟨d'?, t'⟩ := s'
    cases d'? with
    | none => cases hid
    | some d' => exact ((hsound' d' rfl).filled id hid).each r hr
  constructor
  · intro id hreach r hr type target addend
    by_cases hid : id ∈ tables d?
    · obtain ⟨kind, _, _, houtcome, hkind, -⟩ := hclean id hid r hr
      rw [houtcome]
      rintro heq
      cases heq
      exact hkind type rfl
    · obtain ⟨r₀, -, hlowers⟩ := (hlowered id hid hreach).lowers htables hr
      exact hlowers.raw type target addend
  · intro hdynamic id hreach r hr kind target addend houtcome himport
    by_cases hid : id ∈ tables d?
    · obtain ⟨_, _, _, heq, -, htarget⟩ := hclean id hid r hr
      cases heq.symm.trans houtcome
      cases htarget.symm.trans himport
    · obtain ⟨r₀, hr₀, hlowers⟩ := (hlowered id hid hreach).lowers htables hr
      have himport₀ : (t.get target).isImport = true :=
        ((hevolves.shell.map Symbol.isImport).2 target).symm.trans himport
      obtain ⟨type, addend', hraw, hslipped⟩ :=
        hlowers.imports hdynamic kind target addend houtcome himport₀
      exact ⟨r₀, hr₀, type, addend', hraw, hslipped⟩

end ArmLink.DynamicTables
