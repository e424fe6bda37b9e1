import ArmLink.Proofs.Dynamic.Consistency
import ArmLink.Proofs.Dynamic.Lower

/-!
# The steps of the dynamic loader's tables

Whatever is done to the tables of the dynamic loader, from setting them up to completing them, is
done in steps of two kinds: the tables grow, or the relocations of a symbol that is no table are
replaced. What all steps preserve holds of all tables that can be reached.
-/

namespace ArmLink.DynamicTables

open SymbolTable Relation List

variable {d d' : DynamicTables} {t t' : SymbolTable} {P : SymbolId → Prop}
  {s s' : DynamicTables × SymbolTable}

/-! ## Steps -/

/-- What can happen to tables and symbols at a time. -/
inductive Step : DynamicTables × SymbolTable → DynamicTables × SymbolTable → Prop
  | growth {P : SymbolId → Prop} {start s s' : DynamicTables × SymbolTable}
      (h : Growth P start s s') : Step s s'
  | replace {d : DynamicTables} {t : SymbolTable} {id : SymbolId} (hid : id ∉ d.all)
      (relocations : List (Relocation SymbolId)) :
      Step (d, t) (d, t.modify id fun s => { s with relocations })

/-- Any number of steps. -/
abbrev Steps : DynamicTables × SymbolTable → DynamicTables × SymbolTable → Prop :=
  ReflTransGen Step

/-- The tables stay the same symbols, and no symbol comes or goes. -/
theorem Step.fixed (h : Step s s') : s'.1.all = s.1.all ∧ Keeps shell s.2 s'.2 := by
  cases h with
  | replace => exact ⟨rfl, .modify rfl⟩
  | growth h =>
    cases h with
    | record hall => exact ⟨hall, .refl _⟩
    | extend id hid hf => exact ⟨rfl, .modify (congrArg Prod.fst (hf _).kept)⟩
    | index | stub | slot => exact ⟨rfl, .modify rfl⟩

theorem Steps.fixed (h : Steps s s') : s'.1.all = s.1.all ∧ Keeps shell s.2 s'.2 := by
  induction h with
  | refl => exact ⟨rfl, .refl _⟩
  | tail _ hstep ih => exact ⟨hstep.fixed.1.trans ih.1, ih.2.trans hstep.fixed.2⟩

theorem Growths.steps (h : Growths P s s s') : Steps s s' :=
  ReflTransGen.mono (fun _ _ => .growth) _ _ h

theorem growths_perform (call : Call) (s : DynamicTables × SymbolTable) :
    Growths (fun _ => True) s s (perform call s).2 := by
  have htables : ∀ table ∈ s.1.all, True := fun _ _ => trivial
  cases call with
  | index id => exact growths_ensureIndex s.1 s.2 trivial
  | stub id => exact growths_ensureStub s.2 htables trivial
  | slot id => exact growths_ensureSlot s.2 htables trivial
  | need library => exact growths_addNeeded s.1 s.2 library
  | exports => exact growths_exportSymbols s.1 s.2 fun _ _ => trivial

theorem steps_perform (call : Call) (s : DynamicTables × SymbolTable) :
    Steps s (perform call s).2 :=
  Growths.steps (growths_perform call s)

theorem steps_run (calls : List Call) (s : DynamicTables × SymbolTable) : Steps s (run calls s) :=
  foldl_induction .refl fun s' call _ h => h.trans (steps_perform call s')

theorem steps_addRelocation (d : DynamicTables) (t : SymbolTable) (owner : SymbolId)
    (offset index type : Nat) : Steps (d, t) (d.addRelocation t owner offset index type) :=
  Growths.steps (growths_addRelocation (P := fun _ => True) d t trivial offset index type)

theorem steps_lowerRelocation {external : Bool} {owner : SymbolId} {r : Relocation SymbolId}
    {lowered : Lowered} (h : lowerRelocation external (some d) t owner r = .ok lowered) :
    ∃ d', lowered.tables = some d' ∧ Steps (d, t) (d', lowered.symbols) := by
  cases way_of_lowerRelocation h with
  | gone | kept | own | base => exact ⟨d, rfl, .refl⟩
  | stub => exact ⟨_, rfl, steps_perform (.stub _) (d, t)⟩
  | slot => exact ⟨_, rfl, steps_perform (.slot _) (d, t)⟩
  | patch => exact ⟨_, rfl, (steps_perform (.index _) (d, t)).trans (steps_addRelocation ..)⟩

theorem steps_lower {external : Bool} {d? : Option DynamicTables}
    (h : lower external (some d) t = .ok (d?, t')) :
    ∃ d', d? = some d' ∧ Steps (d, t) (d', t') := by
  refine lower_induction (P := fun s : Lowering => ∃ d', s.1 = some d' ∧ Steps (d, t) (d', s.2))
    ⟨d, rfl, .refl⟩ ?_ ?_ h
  · rintro ⟨_, t₁⟩ owner r lowered - - - - ⟨d₁, rfl, hsteps⟩ hlower
    obtain ⟨d₂, hd₂, hmore⟩ := steps_lowerRelocation hlower
    exact ⟨d₂, hd₂, hsteps.trans hmore⟩
  · rintro ⟨_, t₁⟩ owner relocations howner ⟨d₁, rfl, hsteps⟩
    exact ⟨d₁, rfl, hsteps.tail (.replace howner relocations)⟩

/-! ## What can be reached -/

/-- Tables and symbols that operations lead to, from symbols that no table holds anything for. -/
inductive Reached : DynamicTables → SymbolTable → Prop
  | setup {d : DynamicTables} {t t' : SymbolTable} (hfresh : ∀ id, Fresh (t.get id))
      (h : setup t = .ok (d, t')) : Reached d t'
  | run {d : DynamicTables} {t : SymbolTable} (h : Reached d t) (calls : List Call) :
      Reached (run calls (d, t)).1 (run calls (d, t)).2
  | addRelocation {d : DynamicTables} {t : SymbolTable} (h : Reached d t) (owner : SymbolId)
      (offset index type : Nat) :
      Reached (d.addRelocation t owner offset index type).1
        (d.addRelocation t owner offset index type).2
  | lower {d d' : DynamicTables} {t t' : SymbolTable} {external : Bool} (h : Reached d t)
      (hlower : lower external (some d) t = .ok (some d', t')) : Reached d' t'
  /-- the loader is asked to adjust every word that holds an address -/
  | addRelative {d : DynamicTables} {t : SymbolTable} (h : Reached d t) :
      Reached (d.addRelative t).1 (d.addRelative t).2
  | finish {d : DynamicTables} {t : SymbolTable} (h : Reached d t) (runPath : Option String) :
      Reached (d.finish t runPath).1 (d.finish t runPath).2

/-- **Invariants.** What holds after setting up and is preserved by steps holds of all that can be
reached. -/
theorem Reached.invariant {P : DynamicTables × SymbolTable → Prop}
    (hsetup : ∀ t d t', (∀ id, Fresh (t.get id)) → DynamicTables.setup t = .ok (d, t') → P (d, t'))
    (hstep : ∀ s s', Step s s' → P s → P s') (h : Reached d t) : P (d, t) := by
  have hsteps {s s' : DynamicTables × SymbolTable} (h : Steps s s') (hs : P s) : P s' := by
    induction h with
    | refl => exact hs
    | tail _ hlast ih => exact hstep _ _ hlast ih
  induction h with
  | setup hfresh h => exact hsetup _ _ _ hfresh h
  | run _ calls ih => exact hsteps (steps_run calls _) ih
  | addRelocation _ owner offset index type ih =>
    exact hsteps (steps_addRelocation _ _ owner offset index type) ih
  | lower _ hlower ih =>
    obtain ⟨d', hd', h⟩ := steps_lower hlower
    cases hd'
    exact hsteps h ih
  | addRelative _ ih => exact hsteps (Growths.steps (growths_addRelative _ _)) ih
  | finish _ runPath ih =>
    exact hsteps (Growths.steps
      (growths_finish (P := fun _ => True) _ runPath fun _ _ => trivial)) ih

/-- The tables are different symbols, and they are there. -/
theorem Reached.tables (h : Reached d t) : d.all.Nodup ∧ ∀ id ∈ d.all, id < t.size := by
  refine h.invariant (P := fun s => s.1.all.Nodup ∧ ∀ id ∈ s.1.all, id < s.2.size)
    (fun t d t' hfresh hsetup => ?_) fun s s' hstep hs => ?_
  · have hholds := (consistent_of_setup hfresh hsetup).holds
    exact ⟨hholds.nodup, hholds.tables⟩
  · obtain ⟨hall, hshell⟩ := hstep.fixed
    rw [hall, hshell.1]
    exact hs

theorem Reached.ready (h : Reached d t) : ∀ id ∈ d.all, isReady (t.get id) = true := by
  refine h.invariant (P := fun s => ∀ id ∈ s.1.all, isReady (s.2.get id) = true)
    (fun t d t' _ hsetup => (setup_ok hsetup).ready) fun s s' hstep hs id hid => ?_
  obtain ⟨hall, hshell⟩ := hstep.fixed
  have hready : Keeps isReady s.2 s'.2 := hshell.map isReady
  exact (hready.2 id).trans (hs id (hall ▸ hid))

theorem rel_eq_of_all (h : d'.all = d.all) : d'.rel = d.rel := by
  simp only [all, cons.injEq] at h
  exact h.2.2.1

/-- The relocations of a table stay within its bytes, and its size is that of its bytes. -/
def IsBounded (s : Symbol) : Prop :=
  s.size = s.data.length ∧ ∀ r ∈ s.relocations, r.stop ≤ s.data.length

theorem IsBounded.grown {s s' : Symbol} (h : IsBounded s) (hs' : Grown P s s') : IsBounded s' := by
  obtain ⟨bytes, patches, size, rfl, hsize, -, hpatches⟩ := hs'
  refine ⟨(hsize h.1).trans length_append.symm, fun r hr => ?_⟩
  rw [length_append]
  rcases mem_append.mp hr with hr | hr
  · exact Nat.le_add_right_of_le (h.2 r hr)
  · exact (hpatches r hr).2.1

theorem Step.isBounded_rel (hstep : Step s s') (h : IsBounded (s.2.get s.1.rel)) :
    IsBounded (s'.2.get s'.1.rel) := by
  cases hstep with
  | replace hid relocations =>
    rw [get_modify_ne fun heq => hid (by simp [all, ← heq])]
    exact h
  | growth hstep =>
    cases hstep with
    | record hall => exact rel_eq_of_all hall ▸ h
    | extend id hid hf =>
      rw [get_modify]
      split
      · rename_i heq
        exact (heq.1 ▸ h).grown (hf _)
      · exact h
    | index | stub | slot =>
      rw [get_modify]
      split
      · rename_i heq
        exact heq.1 ▸ h
      · exact h

theorem Reached.isBounded_rel (h : Reached d t) : IsBounded (t.get d.rel) := by
  refine h.invariant (P := fun s => IsBounded (s.2.get s.1.rel)) (fun t d t' hfresh hsetup => ?_)
    fun s s' hstep hs => hstep.isBounded_rel hs
  have hcontents := (firstContents_of_setup hfresh hsetup).others d.rel (by simp)
  simp only [contents, Prod.mk.injEq] at hcontents
  simp [IsBounded, hcontents]

theorem got_eq_of_all (h : d'.all = d.all) : d'.got = d.got := by
  simp only [all, cons.injEq] at h
  exact h.2.2.2.1

/-- The slots of symbols of the output get the symbols' addresses. -/
def SlotsPatched (d : DynamicTables) (t : SymbolTable) : Prop :=
  ∀ id slot, (t.get id).isImport = false → (t.get id).gotOffset = some slot →
    slotWord id slot ∈ (t.get d.got).relocations

theorem SlotsPatched.mono (h : SlotsPatched d t) (hkept : Keeps shell t t')
    (hgot : (t.get d.got).relocations ⊆ (t'.get d'.got).relocations)
    (hslot : ∀ id slot, (t.get id).isImport = false → (t'.get id).gotOffset = some slot →
      (t.get id).gotOffset = some slot ∨ slotWord id slot ∈ (t.get d.got).relocations) :
    SlotsPatched d' t' := by
  intro id slot himport hoffset
  have himport : (t.get id).isImport = false :=
    ((hkept.map Symbol.isImport).2 id).symm.trans himport
  rcases hslot id slot himport hoffset with hold | hnew
  · exact hgot (h id slot himport hold)
  · exact hgot hnew

theorem SlotsPatched.keeps (h : SlotsPatched d t) (hkept : Keeps shell t t')
    (hgot : (t.get d.got).relocations ⊆ (t'.get d'.got).relocations)
    (hoffset : Keeps Symbol.gotOffset t t') : SlotsPatched d' t' :=
  h.mono hkept hgot fun id _ _ hslot => .inl ((hoffset.2 id).symm.trans hslot)

theorem SlotsPatched.step (h : SlotsPatched s.1 s.2) (hlt : s.1.got < s.2.size)
    (hstep : Step s s') : SlotsPatched s'.1 s'.2 := by
  have hkept := hstep.fixed.2
  have hnoted (t : SymbolTable) (got : SymbolId) {id : SymbolId} {f : Symbol → Symbol}
      (hf : ∀ s, (f s).relocations = s.relocations) :
      (t.get got).relocations ⊆ ((t.modify id f).get got).relocations := by
    have hsame : Keeps Symbol.relocations t (t.modify id f) := .modify (hf _)
    exact fun _ hr => (hsame.2 got).symm ▸ hr
  cases hstep with
  | replace hid relocations =>
    refine h.keeps hkept ?_ (.modify rfl)
    rw [get_modify_ne fun heq => hid (by simp [all, ← heq])]
    exact Subset.refl _
  | growth hstep =>
    cases hstep with
    | record hall =>
      refine h.keeps hkept ?_ (.refl _)
      rw [got_eq_of_all hall]
      exact Subset.refl _
    | @extend d t f table htable hf =>
      have hoffset : (f (t.get table)).gotOffset = (t.get table).gotOffset :=
        congrArg (·.2.2.2.2) (hf (t.get table)).kept
      refine h.keeps hkept ?_ (.modify hoffset)
      rw [get_modify]
      split
      · rename_i heq
        obtain ⟨bytes, patches, size, hextended, -⟩ := hf (t.get table)
        rw [hextended, ← heq.1]
        exact subset_append_left _ _
      · exact Subset.refl _
    | index | stub => exact h.keeps hkept (hnoted _ _ fun _ => rfl) (.modify rfl)
    | slot hnone hslot =>
      refine h.mono hkept (hnoted _ _ fun _ => rfl) fun j slot himport hoffset => ?_
      rw [get_modify] at hoffset
      split at hoffset
      · rename_i heq
        obtain rfl := heq.1
        cases hoffset
        exact .inr (hslot hlt himport)
      · exact .inl hoffset

theorem Reached.slotsPatched (h : Reached d t) : SlotsPatched d t := by
  have hinvariant := h.invariant (P := fun s => s.1.got < s.2.size ∧ SlotsPatched s.1 s.2)
    (fun t d t' hfresh hsetup => ?_) fun s s' hstep ⟨hlt, hs⟩ => ⟨?_, hs.step hlt hstep⟩
  · exact hinvariant.2
  · have hholds := (consistent_of_setup hfresh hsetup).holds
    refine ⟨hholds.tables d.got (by simp [all]), fun id slot _ hoffset => ?_⟩
    rw [hholds.slots.offset.none_of_not_mem not_mem_nil] at hoffset
    cases hoffset
  · obtain ⟨hall, hshell⟩ := hstep.fixed
    rw [got_eq_of_all hall, hshell.1]
    exact hlt

end ArmLink.DynamicTables
