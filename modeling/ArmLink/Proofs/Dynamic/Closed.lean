import ArmLink.Proofs.Dynamic.Operations
import ArmLink.Proofs.SymbolTable.Merge

/-!
# What the tables of the dynamic loader refer to

The tables of the dynamic loader are symbols that are kept, and they refer to each other and to
symbols that kept symbols refer to. So whatever is done to the tables, and to relocations because of
them, nothing that is kept comes to refer to what is not.
-/

namespace ArmLink

open List

/-- A symbol is kept if it was reached. -/
def SymbolTable.Kept (t : SymbolTable) (id : SymbolId) : Prop := (t.get id).reachable = true

/-- The relocations of what is kept lead to what is kept. -/
def SymbolTable.Closed (t : SymbolTable) : Prop :=
  ∀ id, t.Kept id → ∀ r ∈ (t.get id).relocations, r.LeadsTo t.Kept

theorem SymbolTable.Keeps.kept {t t' : SymbolTable} {id : SymbolId}
    (h : Keeps Symbol.reachable t t') : t'.Kept id ↔ t.Kept id := by
  rw [Kept, Kept, h.2]

namespace DynamicTables

open SymbolTable

variable {d : DynamicTables} {t t' t'' : SymbolTable} {id : SymbolId} {P : SymbolId → Prop}

/-! ## Relocations that are added -/

/-- A symbol is kept as before, and the relocations that are new lead to symbols with the property.
-/
structure Gains (P : SymbolId → Prop) (s s' : Symbol) : Prop where
  mark : s'.reachable = s.reachable
  leads : ∀ r ∈ s'.relocations, r ∈ s.relocations ∨ r.LeadsTo P

namespace Gains

variable {s s' s'' : Symbol}

theorem refl (s : Symbol) : Gains P s s := ⟨rfl, fun _ => .inl⟩

theorem trans (h : Gains P s s') (h' : Gains P s' s'') : Gains P s s'' := by
  refine ⟨h'.mark.trans h.mark, fun r hr => ?_⟩
  rcases h'.leads r hr with hold | hnew
  · exact h.leads r hold
  · exact .inr hnew

end Gains

theorem Grown.gains {s s' : Symbol} (h : Grown P s s') : Gains P s s' := by
  obtain ⟨bytes, patches, size, rfl, -, -, hpatches⟩ := h
  refine ⟨rfl, fun r hr => ?_⟩
  rcases mem_append.mp hr with hold | hnew
  · exact .inl hold
  · obtain ⟨-, -, kind, target, addend, houtcome, -, htarget⟩ := hpatches r hnew
    refine .inr fun x hx => ?_
    simp only [Relocation.target?, houtcome, Option.some.injEq] at hx
    exact hx ▸ htarget

/-- All symbols are kept as before, and the relocations that are new lead to symbols with the
property. -/
structure AllGain (P : SymbolId → Prop) (t t' : SymbolTable) : Prop where
  each : ∀ id, Gains P (t.get id) (t'.get id)

namespace AllGain

theorem refl (t : SymbolTable) : AllGain P t t := ⟨fun id => .refl (t.get id)⟩

theorem trans (h : AllGain P t t') (h' : AllGain P t' t'') : AllGain P t t'' :=
  ⟨fun id => (h.each id).trans (h'.each id)⟩

theorem modify (t : SymbolTable) (id : SymbolId) {f : Symbol → Symbol}
    (hf : ∀ s, Gains P s (f s)) : AllGain P t (t.modify id f) := by
  refine ⟨fun j => ?_⟩
  rw [get_modify]
  split
  · rename_i hj
    rw [hj.1]
    exact hf _
  · exact .refl _

theorem note (t : SymbolTable) (id : SymbolId) {f : Symbol → Symbol}
    (hf : ∀ s, ((f s).reachable, (f s).relocations) = (s.reachable, s.relocations)) :
    AllGain P t (t.modify id f) := by
  refine modify t id fun s => ?_
  obtain ⟨hmark, hrelocations⟩ := Prod.mk.inj (hf s)
  exact ⟨hmark, fun r hr => .inl (hrelocations ▸ hr)⟩

theorem closed (h : AllGain t.Kept t t') (ht : t.Closed) : t'.Closed := by
  intro id hid r hr target htarget
  rw [Kept, (h.each target).mark]
  rw [Kept, (h.each id).mark] at hid
  rcases (h.each id).leads r hr with hold | hnew
  · exact ht id hid r hold target htarget
  · exact hnew target htarget

end AllGain

/-- **Growth** adds relocations that lead to symbols with the property. -/
theorem Growth.allGain {start s s' : DynamicTables × SymbolTable} (h : Growth P start s s') :
    AllGain P s.2 s'.2 := by
  cases h with
  | record => exact .refl _
  | extend id hid hf => exact .modify _ id fun s => (hf s).gains
  | index | stub | slot => exact .note _ _ fun _ => rfl

theorem Growths.allGain {s s' : DynamicTables × SymbolTable} (h : Growths P s s s') :
    AllGain P s.2 s'.2 := by
  induction h with
  | refl => exact .refl _
  | tail _ hstep ih => exact ih.trans hstep.allGain

/-- Words that the loader adjusts belong to what is kept. -/
theorem allGain_addRelative (d : DynamicTables) (t : SymbolTable) :
    AllGain t.Kept t (d.addRelative t).2 := by
  rw [addRelative_eq]
  refine foldl_induction (P := fun s : DynamicTables × SymbolTable => AllGain t.Kept t s.2)
    (.refl t) fun s x hx hs => ?_
  have howner : t.Kept x.1 := (mem_movingWords.mp hx).2.reachable
  exact hs.trans (Growths.allGain (growths_addRelocation s.1 s.2 howner ..))

/-! ## Setting up -/

theorem IsSetUp.kept_table (h : IsSetUp t d t') : ∀ table ∈ d.all, t'.Kept table := by
  intro table htable
  have hready := h.ready table htable
  simp only [isReady, Bool.and_eq_true] at hready
  exact hready.1.1

theorem IsSetUp.kept_of_kept (h : IsSetUp t d t') (hid : t.Kept id) : t'.Kept id := by
  by_cases htable : id ∈ d.all
  · exact h.kept_table id htable
  · rw [Kept, h.other id htable]
    exact hid

/-- The tables start without relocations but for the one that leads from the stubs to their
slots. -/
theorem closed_setup (ht : t.Closed) (hfresh : ∀ id, Fresh (t.get id))
    (h : setup t = .ok (d, t')) : t'.Closed := by
  have hset := setup_ok h
  intro id hid r hr
  by_cases htable : id ∈ d.all
  · refine ((firstContents_of_setup hfresh h).filled (p := (·.LeadsTo t'.Kept)) ?_ htable).each r hr
    rintro _ ⟨⟩
    exact hset.kept_table d.gotPlt (by simp [all])
  · rw [hset.other id htable] at hr
    rw [Kept, hset.other id htable] at hid
    exact fun target htarget => hset.kept_of_kept (ht id hid r hr target htarget)

/-- What shared libraries can see is kept if it was kept before the tables were made. -/
theorem IsSetUp.kept_exported (h : IsSetUp t d t') (hexported : ∀ id ∈ t.exported, t.Kept id) :
    ∀ id ∈ t'.exported, t'.Kept id := by
  intro id hid
  by_cases htable : id ∈ d.all
  · exact h.kept_table id htable
  · refine h.kept_of_kept (hexported id ?_)
    obtain ⟨-, hvisible⟩ := mem_filter.mp hid
    rw [h.other id htable] at hvisible
    refine mem_filter.mpr ⟨mem_ids.mpr (Nat.lt_of_not_le fun hle => ?_), hvisible⟩
    rw [get_of_size_le hle] at hvisible
    cases hvisible

/-! ## Lowering -/

variable {external : Bool} {d? : Option DynamicTables} {owner : SymbolId} {r : Relocation SymbolId}
  {lowered : Lowered}

/-- What lowering a relocation adds leads to symbols with the property, and so does what is left of
the relocation. -/
structure Led (P : SymbolId → Prop) (t : SymbolTable) (r : Relocation SymbolId)
    (lowered : Lowered) : Prop where
  symbols : AllGain P t lowered.symbols
  outcome : ∀ outcome ∈ lowered.outcome, Relocation.LeadsTo P { r with outcome }

theorem led_lowerRelocation (htables : ∀ table ∈ tables d?, P table) (howner : P owner)
    (hr : r.LeadsTo P) (h : lowerRelocation external d? t owner r = .ok lowered) :
    Led P t r lowered := by
  have hpending {d? : Option DynamicTables} {t' : SymbolTable} {kind : Relocation.Kind}
      {target : SymbolId} {addend : Word64} (h : AllGain P t t') (htarget : P target) :
      Led P t r ⟨some (.pending kind (some target) addend), d?, t'⟩ := by
    refine ⟨h, ?_⟩
    rintro _ ⟨⟩ _ ⟨⟩
    exact htarget
  have hconstant {d? : Option DynamicTables} {t' : SymbolTable} {value : Word64}
      (h : AllGain P t t') : Led P t r ⟨some (.constant value), d?, t'⟩ := by
    refine ⟨h, ?_⟩
    rintro _ ⟨⟩
    exact nofun
  have hway := way_of_lowerRelocation h
  cases hway with
  | gone => exact ⟨.refl t, nofun⟩
  | kept =>
    refine ⟨.refl t, ?_⟩
    rintro _ ⟨⟩
    exact hr
  | own houtcome =>
    exact hpending (.refl t) (hr _ (by simp only [Relocation.target?, houtcome]))
  | @base d => exact hpending (.refl t) (htables d.got (by simp [tables, all]))
  | @stub d target _ _ htarget =>
    refine hpending (Growths.allGain (growths_ensureStub t htables (hr target htarget))) ?_
    rw [plt_eq_of_all (grows_ensureStub [] d t target).all]
    exact htables d.plt d.plt_mem_all
  | @slot d target _ htarget hslot =>
    have hgain := Growths.allGain (growths_ensureSlot t htables (hr target htarget))
    obtain ⟨value, rfl⟩ | ⟨addend, rfl⟩ := hslot
    · exact hconstant hgain
    · refine hpending hgain ?_
      rw [got_eq_of_all (grows_ensureSlot [] d t target).all]
      exact htables d.got (by simp [tables, all])
  | @patch d target _ _ houtcome =>
    have htarget : P target := hr _ (by simp only [Relocation.target?, houtcome])
    exact hconstant ((Growths.allGain (growths_ensureIndex d t htarget)).trans
      (Growths.allGain (growths_addRelocation _ _ howner ..)))

theorem leadsTo_of_lower_table {s' : Lowering} (ht : t.Closed)
    (htables : ∀ table ∈ tables d?, t.Kept table) (h : lower external d? t = .ok s') :
    ∀ table ∈ tables d?, ∀ r ∈ (s'.2.get table).relocations, r.LeadsTo t.Kept := by
  refine (lower_induction (P := fun s => tables s.1 = tables d? ∧ ∀ table ∈ tables d?,
    ∀ r ∈ (s.2.get table).relocations, r.LeadsTo t.Kept)
    ⟨rfl, fun table htable => ht table (htables table htable)⟩ ?_ ?_ h).2
  · intro s owner r lowered _ howner hr _ hs hlower
    have hled := led_lowerRelocation (hs.1.symm ▸ htables) howner (ht owner howner r hr) hlower
    have hevolves : Evolves [] s (lowered.tables, lowered.symbols) :=
      evolves_lowerRelocation hlower
    refine ⟨hevolves.tables.trans hs.1, fun table htable r' hr' => ?_⟩
    rcases (hled.symbols.each table).leads r' hr' with hold | hnew
    · exact hs.2 table htable r' hold
    · exact hnew
  · intro s owner relocations howner hs
    refine ⟨hs.1, fun table htable => ?_⟩
    have hne : table ≠ owner := by
      rintro rfl
      exact howner (hs.1.symm ▸ htable)
    rw [get_modify_ne hne]
    exact hs.2 table htable

/-- **Lowering.** What is kept still refers only to what is kept when relocations were lowered. -/
theorem closed_lower {s' : Lowering} (ht : t.Closed)
    (htables : ∀ table ∈ tables d?, t.Kept table) (h : lower external d? t = .ok s') :
    s'.2.Closed := by
  obtain ⟨hevolves, hlowered⟩ := lower_ok h
  have hmarks := hevolves.shell.read Symbol.reachable fun _ => rfl
  intro id hid r hr target htarget
  rw [hmarks.kept] at hid ⊢
  by_cases htable : id ∈ tables d?
  · exact leadsTo_of_lower_table ht htables h id htable r hr target htarget
  · -- the relocation is what is left of one that the symbol had
    obtain ⟨lowered, hmap, hrelocations, hbetween⟩ := hlowered id htable hid
    rw [hrelocations] at hr
    obtain ⟨⟨r₀, outcome?⟩, hx, hremains⟩ := mem_filterMap.mp hr
    obtain ⟨outcome, rfl, rfl⟩ := Option.map_eq_some_iff.mp hremains
    have hr₀ : r₀ ∈ (t.get id).relocations := hmap ▸ mem_map_of_mem hx
    obtain ⟨s₁, result, hevolves₁, hlower, houtcome, -⟩ := hbetween _ hx
    have hled := led_lowerRelocation (hevolves₁.tables.symm ▸ htables) hid (ht id hid r₀ hr₀) hlower
    exact hled.outcome outcome houtcome target htarget

end DynamicTables

end ArmLink
