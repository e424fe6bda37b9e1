import ArmLink.Proofs.Dynamic.Lower
import ArmLink.Proofs.Dynamic.Setup
import ArmLink.Proofs.Layout.Compute
import ArmLink.Proofs.Link.Collect
import ArmLink.Proofs.Resolve

/-!
# From objects to addresses

A link that was prepared has gone through five steps: symbols were collected, the tables of the
dynamic loader were made if the output needs them, relocations were lowered, the tables were
completed, and addresses were given. What each of the middle steps leaves alone is said here once.
-/

namespace ArmLink.Link

open SymbolTable DynamicTables Layout Resolve List

variable {o : Options} {objects : List Object} {kept t t' u : SymbolTable} {s s' : Lowering}
  {placed : Placed} {owner : SymbolId} {position : Nat} {r : Relocation SymbolId}

/-- The state in which relocations are lowered: what was defined is there with its relocations, and
so are the tables if the output needs them. -/
structure Started (o : Options) (kept : SymbolTable) (s : Lowering) : Prop where
  isSome : s.1.isSome = o.needsDynamic
  sentinels : s.2.HasSentinels
  defined : ∀ id, (kept.get id).isDefined = true → id ∉ tables s.1 ∧
    shell (s.2.get id) = shell (kept.get id) ∧
    (s.2.get id).relocations = (kept.get id).relocations
  imports : ∀ id, (s.2.get id).isImport = (kept.get id).isImport
  plt : ∀ d ∈ s.1, s.2.find? Elf.SectionName.plt 0 = some d.plt
  inWords : ∀ d ∈ s.1, d.all.Nodup ∧ InWords d s.2

theorem hasSentinels_setup {d : DynamicTables} (h : kept.HasSentinels) (hsetup : IsSetUp kept d t) :
    t.HasSentinels := by
  intro name hname
  obtain ⟨id, hfind, hspecial⟩ := h name hname
  have htable : id ∉ d.all := fun hid => by
    have hundefined := hsetup.undefined id hid
    rw [Symbol.isDefined, hspecial, Bool.or_true] at hundefined
    cases hundefined
  refine ⟨id, hsetup.kept name 0 id hfind, ?_⟩
  rw [hsetup.other id htable, hspecial]

theorem started_of_makeDynamic (hkept : kept.Collected)
    (h : (makeDynamic (m := Id) .silent o kept).run = .ok s) : Started o kept s := by
  unfold makeDynamic at h
  split at h
  · rename_i hneeds
    obtain ⟨⟨d, t⟩, hstep, h⟩ := run_bind_eq_ok.mp h
    have hsetup := setup_ok (mapError_eq_ok.mp hstep)
    have hgrows := grows_exportSymbols d t
    dsimp only at h
    generalize d.exportSymbols t = exports at h hgrows
    obtain ⟨d', t'⟩ := exports
    cases h
    have himports := hgrows.shell.read Symbol.isImport fun _ => rfl
    refine ⟨hneeds.symm, ?_, fun id hid => ?_, fun id => ?_, ?_, ?_⟩
    · exact (hasSentinels_setup hkept.sentinels hsetup).keeps
        (hgrows.shell.map fun s => (s.name, s.version, s.special))
    · have htable : id ∉ d.all := fun hmem => by
        rw [hsetup.undefined id hmem] at hid
        cases hid
      refine ⟨(hgrows.all.symm ▸ htable : id ∉ d'.all), ?_, ?_⟩
      · rw [hgrows.shell.2 id, hsetup.other id htable]
      · rw [hgrows.relocations id htable not_mem_nil, hsetup.other id htable]
    · exact (himports.2 id).trans (hsetup.imports id)
    · rintro _ ⟨⟩
      rw [hgrows.shell.finds _ _ fun _ => rfl,
        hsetup.found (_, d.plt) (mem_of_getElem? (i := 6) rfl), plt_eq_of_all hgrows.all]
    · rintro _ ⟨⟩
      refine ⟨hgrows.all ▸ hsetup.nodup, hgrows.inWords hsetup.nodup (hsetup.inWords ?_ ?_)⟩
      · exact fun id => (hkept.unlinked id).pltOffset
      · refine fun id hid => (hkept.unlinked id).data ?_
        simpa using (Bool.or_eq_false_iff.mp hid).1
  · rename_i hneeds
    cases h
    exact ⟨(Bool.eq_false_iff.mpr hneeds).symm, hkept.sentinels,
      fun _ _ => ⟨not_mem_nil, rfl, rfl⟩, fun _ => rfl, nofun, nofun⟩

/-- Completing the tables asks the loader to adjust words if the output may be loaded anywhere. -/
theorem finishDynamic_eq (h : (finishDynamic (m := Id) .silent o (some d) t).run = .ok t') :
    t' = ((if o.isRelocatable then d.addRelative t else (d, t)).1.finish
      (if o.isRelocatable then d.addRelative t else (d, t)).2 o.runPath?).2 := by
  simp only [finishDynamic] at h
  split at h
  · rename_i hrelocatable
    obtain ⟨_, hrelative, h⟩ := run_bind_eq_ok.mp h
    cases hrelative
    rw [if_pos hrelocatable]
    exact (Except.ok.inj h).symm
  · rename_i hfixed
    obtain ⟨_, hpure, h⟩ := run_bind_eq_ok.mp h
    cases hpure
    rw [if_neg hfixed]
    exact (Except.ok.inj h).symm

theorem evolves_finishDynamic {d? : Option DynamicTables}
    (h : (finishDynamic (m := Id) .silent o d? t).run = .ok t') :
    ∃ d?', Evolves [] (d?, t) (d?', t') := by
  cases d? with
  | none =>
    cases h
    exact ⟨none, .refl [] _⟩
  | some d =>
    rw [finishDynamic_eq h]
    split
    · exact ⟨some _, .dynamic ((grows_addRelative d t).trans (grows_finish ..))⟩
    · exact ⟨some _, .dynamic (grows_finish ..)⟩

/-- The states of a link until symbols have addresses: what was `kept`, the state `s` in which
relocations are lowered and the state `s'` that they leave, the symbols `u` with completed tables,
and the symbols `t` of the layout. -/
structure Staged (o : Options) (kept : SymbolTable) (s s' : Lowering) (u : SymbolTable)
    (layout : Layout) (t : SymbolTable) : Prop where
  made : (makeDynamic (m := Id) .silent o kept).run = .ok s
  lowered : lower o.isExternal s.1 s.2 = .ok s'
  finished : (finishDynamic (m := Id) .silent o s'.1 s'.2).run = .ok u
  computed : compute u o.isRelocatable o.firstSectionIndex = .ok (layout, t)

theorem Staged.keeps_shell {layout : Layout} (h : Staged o kept s s' u layout t) :
    Keeps shell s.2 u := by
  obtain ⟨hevolves, -⟩ := lower_ok h.lowered
  obtain ⟨d?, hfinish⟩ := evolves_finishDynamic h.finished
  exact hevolves.shell.trans hfinish.shell

theorem Staged.sentinels {layout : Layout} (h : Staged o kept s s' u layout t)
    (hkept : kept.Collected) : u.HasSentinels :=
  (started_of_makeDynamic hkept h.made).sentinels.reads h.keeps_shell fun _ => rfl

/-- A link that was prepared has gone through all states. -/
theorem staged_of_prepare (hkept : collect o objects = .ok kept)
    (h : prepare o objects = .ok placed) : ∃ s s' u t, Staged o kept s s' u placed.layout t ∧
      Resolve.apply t placed.layout o.isExternal = .ok (placed.table, placed.relocations) := by
  obtain ⟨kept', hkept', h⟩ := run_bind_eq_ok.mp h
  cases Except.ok.inj (hkept'.symm.trans hkept)
  obtain ⟨s, hmade, h⟩ := run_bind_eq_ok.mp h
  obtain ⟨s', hlower, h⟩ := run_bind_eq_ok.mp h
  obtain ⟨u, hfinish, h⟩ := run_bind_eq_ok.mp h
  obtain ⟨⟨layout, t⟩, hlayout, h⟩ := run_bind_eq_ok.mp h
  obtain ⟨⟨table, relocations⟩, happly, h⟩ := run_bind_eq_ok.mp h
  cases h
  exact ⟨s, s', u, t, ⟨hmade, mapError_eq_ok.mp hlower, hfinish, mapError_eq_ok.mp hlayout⟩,
    mapError_eq_ok.mp happly⟩

/-- **Prepared.** The states that every prepared link has gone through. -/
theorem prepare_ok (hkept : collect o objects = .ok kept) (h : prepare o objects = .ok placed) :
    ∃ s s' s'' t, Started o kept s ∧ lower o.isExternal s.1 s.2 = .ok s' ∧ Evolves [] s' s'' ∧
      Layout.compute s''.2 o.isRelocatable o.firstSectionIndex = .ok (placed.layout, t) ∧
      Resolve.apply t placed.layout o.isExternal = .ok (placed.table, placed.relocations) := by
  obtain ⟨s, s', u, t, hstaged, happly⟩ := staged_of_prepare hkept h
  obtain ⟨d?, hevolves⟩ := evolves_finishDynamic hstaged.finished
  exact ⟨s, s', (d?, u), t, started_of_makeDynamic (collected hkept) hstaged.made, hstaged.lowered,
    hevolves, hstaged.computed, happly⟩

/-! ## The way of a relocation -/

theorem isDefined_of_isSite {s : Symbol} (h : isSite s = true) : s.isDefined = true := by
  obtain ⟨-, hplaced⟩ := Bool.and_eq_true_iff.mp h
  rw [Symbol.isDefined, Bool.or_eq_true]
  refine .inl (decide_eq_true fun hundefined => ?_)
  rw [hundefined] at hplaced
  cases hplaced

theorem special_of_isSite (hkept : kept.Collected) (h : isSite (kept.get owner) = true) :
    (kept.get owner).special = false := by
  refine Bool.eq_false_iff.mpr fun hspecial => ?_
  have hplaced := (hkept.unlinked owner).special hspecial
  rw [isSite, hplaced, Bool.and_false] at h
  cases h

theorem isSite_of_computed {t₁ t₀ : SymbolTable} {l : Layout} {fills : List Fill}
    (h : Computed t l t₁ t₀ fills) (hspecial : (t.get owner).special = false)
    (hsite : isSite (t.get owner) = true) : isSite (t₁.get owner) = true := by
  obtain ⟨hreach, hplaced⟩ := Bool.and_eq_true_iff.mp hsite
  have hpromoted := h.promoted owner
  have hspecial₀ : (t₀.get owner).special = false := by
    rw [hpromoted, promoted_eq]
    exact hspecial
  rw [h.finished.ordinary owner hspecial₀, hpromoted]
  refine Bool.and_eq_true_iff.mpr ⟨?_, isPlaced_promoted hplaced⟩
  rw [promoted_eq]
  exact hreach

/-- What becomes of the relocation `r` at a position of a symbol: it is lowered between `s` and
`s'`, and what is left of it is applied once symbols have the addresses of `t`. -/
structure Traced (o : Options) (kept : SymbolTable) (placed : Placed) (owner : SymbolId)
    (position : Nat) (r : Relocation SymbolId) (s s' : Lowering) (t : SymbolTable)
    (outcome? : Option (Relocation.Outcome SymbolId)) : Prop where
  started : Started o kept s
  evolves : Evolves s.2.ids s s'
  computed : Keeps untouched s'.2 t
  applied : Keeps bare t placed.table
  lowered : LoweredBetween o.isExternal s.2.ids owner s s' r outcome?
  /-- what is left of it is applied, and what it writes stays unless a later one overwrites it -/
  settled : ∀ outcome ∈ outcome?, ∃ x,
    settle ⟨placed.layout, o.isExternal, gotAddress t⟩ t owner { r with outcome } = .ok x ∧
    ((∀ j r', position < j → (kept.get owner).relocations[j]? = some r' → ¬ Overlap r r') →
      (placed.table.get owner).data.slice? r.offset r.size = some (.ofNat r.size x.1.toNat))
  /-- what has become of it is noted -/
  noted : ∀ outcome ∈ outcome?, ∀ x,
    settle ⟨placed.layout, o.isExternal, gotAddress t⟩ t owner { r with outcome } = .ok x →
    { r with outcome := x.2.1 } ∈ (placed.table.get owner).relocations

/-- A relocation of a symbol that has a place can be followed through the states of a link. -/
theorem traced_of_stages {s'' : Lowering} (hkept : kept.Collected) (hstarted : Started o kept s)
    (hlower : lower o.isExternal s.1 s.2 = .ok s') (hfinish : Evolves [] s' s'')
    (hcompute : Layout.compute s''.2 o.isRelocatable o.firstSectionIndex = .ok (placed.layout, t))
    (happly : Resolve.apply t placed.layout o.isExternal = .ok (placed.table, placed.relocations))
    (howner : isSite (kept.get owner) = true)
    (hr : (kept.get owner).relocations[position]? = some r) :
    ∃ outcome?, Traced o kept placed owner position r s s'' t outcome? := by
  obtain ⟨hlowered, hsites⟩ := lower_ok hlower
  have hevolves : Evolves s.2.ids s s'' := hlowered.trans (hfinish.mono nofun)
  have hsentinels : s''.2.HasSentinels := hstarted.sentinels.reads hevolves.shell fun _ => rfl
  obtain ⟨t₀, fills, hcomputed⟩ := compute_ok hsentinels hcompute
  obtain ⟨hbare, happlied⟩ := apply_ok happly
  -- the owner is no table, and still has a place when relocations are applied
  obtain ⟨htable, hshell, hrelocations⟩ := hstarted.defined owner (isDefined_of_isSite howner)
  have hshell' : shell (s''.2.get owner) = shell (kept.get owner) :=
    (hevolves.shell.2 owner).trans hshell
  have hreach : (s.2.get owner).reachable = true :=
    (congrArg Symbol.reachable hshell).trans (Bool.and_eq_true_iff.mp howner).1
  have hsite : isSite (t.get owner) = true := by
    refine isSite_of_computed hcomputed ?_ ?_
    · exact (congrArg Symbol.special hshell').trans (special_of_isSite hkept howner)
    · exact (congrArg isSite hshell').trans howner
  -- the relocation was lowered with the others, and what is left of them was applied
  obtain ⟨outcome?, before, after, hbetween, hsplit, hafter⟩ :=
    (hsites owner htable hreach).site (hrelocations ▸ hr)
  have hsplit' : ∀ outcome ∈ outcome?,
      (t.get owner).relocations = before ++ { r with outcome } :: after := by
    rintro outcome ⟨⟩
    have hlayout := (hcomputed.keeps.read Symbol.relocations fun _ => rfl).2 owner
    rw [hlayout, hfinish.relocations (hlowered.tables ▸ htable) not_mem_nil, hsplit,
      append_assoc]
    rfl
  obtain ⟨done, hdone, -⟩ := (happlied owner).site hsite
  refine ⟨outcome?, hstarted, hevolves, hcomputed.keeps, hbare,
    hbetween.widen (fun _ hid => hid) (.refl _ s) (hfinish.mono nofun),
    fun outcome houtcome => ?_, fun outcome houtcome x hx => ?_⟩
  · obtain ⟨x, hsettle, -, -, hslice⟩ := hdone.site (hsplit' outcome houtcome)
    refine ⟨x, hsettle, fun hlater => hslice fun r' hr' hoverlap => ?_⟩
    obtain ⟨j, r₁, hj, hr₁, hoffset, hsize⟩ := hafter r' hr'
    have hr₁' : (kept.get owner).relocations[j]? = some r₁ := hrelocations ▸ hr₁
    refine hlater j r₁ hj hr₁' ?_
    rw [Overlap, Relocation.stop, Relocation.stop] at hoverlap ⊢
    rwa [← hoffset, ← hsize]
  · obtain ⟨x', hsettle, -, hnoted, -⟩ := hdone.site (hsplit' outcome houtcome)
    cases hsettle.symm.trans hx
    exact mem_of_getElem? hnoted

/-- **Traced.** Every relocation of a symbol that has a place can be followed through the link. -/
theorem traced_of_prepare (hkept : collect o objects = .ok kept)
    (h : prepare o objects = .ok placed) (howner : isSite (kept.get owner) = true)
    (hr : (kept.get owner).relocations[position]? = some r) :
    ∃ s s' t outcome?, Traced o kept placed owner position r s s' t outcome? := by
  obtain ⟨s, s', s'', t, hstarted, hlower, hfinish, hcompute, happly⟩ := prepare_ok hkept h
  exact ⟨s, s'', t,
    traced_of_stages (collected hkept) hstarted hlower hfinish hcompute happly howner hr⟩

end ArmLink.Link
