import ArmLink.Proofs.Dynamic.Complete
import ArmLink.Proofs.Dynamic.LoadBias

/-!
# The tables of a link

A link that needs tables for the dynamic loader makes them of what was collected, and completes them
before symbols get addresses. What is known of tables in general is said here of those of a link.
-/

namespace ArmLink

open SymbolTable DynamicTables
open List hiding all

variable {t t' : SymbolTable} {owner : SymbolId} {d? : Option DynamicTables} {e : ResolveError}
  {r : Relocation SymbolId}

/-! ## Symbols for which no table holds anything -/

theorem DynamicTables.Fresh.define {s s' : Symbol} (h : Fresh s)
    (hentries : entriesOf s' = entriesOf s) (hkind : s'.kind ≠ .undefined) : Fresh s' := by
  refine ⟨hentries.trans h.entries, fun hundefined => ?_⟩
  simp only [Symbol.isDefined, hkind, ne_eq, not_false_eq_true, decide_true, Bool.true_or]
    at hundefined
  cases hundefined

theorem gathers_fresh : Gathers (fun kind _ => kind ≠ .undefined) Fresh where
  new _ _ := ⟨rfl, fun _ => rfl⟩
  write _ _ _ _ _ _ _ _ _ _ hs _ hkind := hs.define rfl hkind
  place _ _ _ _ hs _ := ⟨hs.entries, hs.empty⟩
  provide _ _ _ hs := hs.define rfl nofun

/-- No table holds anything for symbols that were collected. -/
theorem fresh_of_collect {o : Options} {objects : List Object}
    (h : Link.collect o objects = .ok t) : ∀ id, Fresh (t.get id) :=
  gathers_fresh.collect (fun _ hs => ⟨hs.entries, hs.empty⟩)
    (forall_get (by decide) fresh_default) h

namespace Link

open Layout Resolve

variable {o : Options} {objects : List Object} {kept u : SymbolTable} {s s' : Lowering}
  {layout : Layout} {d d₁ : DynamicTables}

/-! ## Failure -/

theorem mergeAll_ne_resolve {index : Nat} (e : ResolveError) :
    (mergeAll (m := Id) .silent objects index t).run ≠ .error (.resolve e) := by
  induction objects generalizing index t with
  | nil => exact nofun
  | cons ob objects ih =>
    intro h
    rcases run_bind_eq_error h with h | ⟨t₁, -, h⟩
    · obtain ⟨failure, -, h⟩ := mapError_eq_error.mp h
      cases h
    · exact ih h

theorem addVariables_ne_resolve {settings : List (String × String)} (e : ResolveError) :
    addVariables settings t ≠ .error (.resolve e) := by
  induction settings generalizing t with
  | nil => exact nofun
  | cons setting settings ih =>
    intro h
    rcases bind_eq_error.mp h with h | ⟨x, -, h⟩
    · obtain ⟨failure, -, h⟩ := mapError_eq_error.mp h
      cases h
    · rcases bind_eq_error.mp h with h | ⟨y, -, h⟩
      · exact ih h
      · cases h

theorem makeDynamic_ne_resolve (e : ResolveError) :
    (makeDynamic (m := Id) .silent o kept).run ≠ .error (.resolve e) := by
  intro h
  simp only [makeDynamic] at h
  split at h
  · rcases run_bind_eq_error h with hsetup | ⟨x, -, h⟩
    · obtain ⟨failure, -, h⟩ := mapError_eq_error.mp hsetup
      cases h
    · cases h
  · cases h

theorem finishDynamic_ne_error (e : LinkError) :
    (finishDynamic (m := Id) .silent o d? t).run ≠ .error e := by
  intro h
  simp only [finishDynamic] at h
  split at h
  · cases h
  · split at h
    · rcases run_bind_eq_error h with h | ⟨x, -, h⟩ <;> cases h
    · rcases run_bind_eq_error h with h | ⟨x, -, h⟩ <;> cases h

/-- A link that fails because a relocation has no value has collected its symbols. -/
theorem exists_collect_of_resolve (h : prepare o objects = .error (.resolve e)) :
    ∃ kept, collect o objects = .ok kept := by
  rcases run_bind_eq_error h with h | ⟨kept, hkept, -⟩
  · rcases run_bind_eq_error h with h | ⟨t, -, h⟩
    · exact absurd h (mergeAll_ne_resolve e)
    · rcases run_bind_eq_error h with h | ⟨x, -, h⟩
      · exact absurd h (addVariables_ne_resolve e)
      · cases h
  · exact ⟨kept, hkept⟩

/-- A link that fails because a relocation has no value has gone through all states. -/
theorem staged_of_resolve (hkept : collect o objects = .ok kept)
    (h : prepare o objects = .error (.resolve e)) :
    ∃ s s' u layout t failure, Staged o kept s s' u layout t ∧
      Resolve.apply t layout o.isExternal = .error failure ∧ failure.error = e := by
  rcases run_bind_eq_error h with hcollect | ⟨kept', hkept', h⟩
  · cases hcollect.symm.trans hkept
  cases Except.ok.inj (hkept'.symm.trans hkept)
  rcases run_bind_eq_error h with hmade | ⟨s, hmade, h⟩
  · exact absurd hmade (makeDynamic_ne_resolve e)
  rcases run_bind_eq_error h with hlower | ⟨s', hlower, h⟩
  · obtain ⟨failure, -, h⟩ := mapError_eq_error.mp hlower
    cases h
  rcases run_bind_eq_error h with hfinish | ⟨u, hfinish, h⟩
  · exact absurd hfinish (finishDynamic_ne_error _)
  rcases run_bind_eq_error h with hlayout | ⟨⟨layout, t⟩, hlayout, h⟩
  · obtain ⟨failure, -, h⟩ := mapError_eq_error.mp hlayout
    cases h
  rcases run_bind_eq_error h with happly | ⟨x, -, h⟩
  · obtain ⟨failure, herror, hfailure⟩ := mapError_eq_error.mp happly
    cases hfailure
    exact ⟨s, s', u, layout, t, failure,
      ⟨hmade, mapError_eq_ok.mp hlower, hfinish, mapError_eq_ok.mp hlayout⟩, herror, rfl⟩
  · cases h

/-! ## The tables of a link -/

/-- A link that needs tables is not finished by a host linker. -/
theorem isExternal_of_needsDynamic (h : o.needsDynamic = true) : o.isExternal = false := by
  simp only [Options.needsDynamic, Bool.and_eq_true, Bool.not_eq_true'] at h
  exact h.1

/-- A relocation of a symbol that has a place patches a word at the offset. Unless the output moves,
the symbol may be written. -/
structure Patchable (moves : Bool) (d : DynamicTables) (t : SymbolTable) (owner : SymbolId)
    (offset : Nat) : Prop where
  free : owner ∉ [d.rel, d.dynamic]
  site : isSite (t.get owner) = true
  word : ∃ r ∈ (t.get owner).relocations, r.offset = offset ∧ r.size = 4
  still : moves = false → (t.get owner).kind.isWritable = true

/-- The tables of a link on their way from where relocations are lowered to where they are
completed. -/
structure Tabled (o : Options) (kept : SymbolTable) (s s' : Lowering) (u : SymbolTable)
    (d : DynamicTables) : Prop where
  requested : ∃ d₀, s.1 = some d₀ ∧ d₀.all = d.all ∧ Requested d₀ s.2
  /-- all other symbols are as they were kept, and have the relocations that they had -/
  other : ∀ id, id ∉ d.all → shell (s.2.get id) = shell (kept.get id) ∧
    (s.2.get id).relocations = (kept.get id).relocations
  grows : ∃ d₁, s'.1 = some d₁ ∧ Grows [] d₁ s'.2 d u
  relocations : ∀ id, id ∉ [d.rel, d.dynamic] → (u.get id).relocations = (s'.2.get id).relocations
  reached : Reached d u
  found : ∀ e ∈ d.named, u.find? e.1 0 = some e.2
  sound : ∃ path, Sound (Patchable o.isRelocatable d u) ((d.entries path).flatMap Entry.bytes) d u
  tags : ∀ r ∈ (u.get d.dynamic).relocations, SparesTags r

theorem named_eq_of_all (h : d.all = d₁.all) : d.named = d₁.named := by
  cases d
  cases d₁
  obtain ⟨rfl, rfl, rfl, rfl, rfl, rfl, rfl, rfl, rfl⟩ := h
  rfl

/-- The tables of a link are made, and exports are requested. -/
theorem requested_of_makeDynamic (hfresh : ∀ id, Fresh (kept.get id))
    (hneeds : o.needsDynamic = true) (h : (makeDynamic (m := Id) .silent o kept).run = .ok s) :
    ∃ d, s.1 = some d ∧ Requested d s.2 ∧ Reached d s.2 ∧
      (∀ id, id ∉ d.all → shell (s.2.get id) = shell (kept.get id) ∧
        (s.2.get id).relocations = (kept.get id).relocations) ∧
      ∀ e ∈ d.named, s.2.find? e.1 0 = some e.2 := by
  simp only [makeDynamic, hneeds, if_true] at h
  obtain ⟨⟨d, t⟩, hstep, h⟩ := run_bind_eq_ok.mp h
  have hsetup := mapError_eq_ok.mp hstep
  cases h
  have hgrows := grows_exportSymbols d t
  have hset := setup_ok hsetup
  refine ⟨(d.exportSymbols t).1, rfl, ?_, ?_, fun id hid => ?_, fun e he => ?_⟩
  · exact ⟨kept, d, t, [.exports], hfresh, hsetup,
      fun _ hcall => mem_singleton.mp hcall ▸ trivial, rfl⟩
  · exact (Reached.setup hfresh hsetup).run [.exports]
  · rw [hgrows.all] at hid
    exact ⟨(hgrows.shell.2 id).trans (congrArg shell (hset.other id hid)),
      (hgrows.relocations id hid not_mem_nil).trans (congrArg _ (hset.other id hid))⟩
  · rw [named_eq_of_all hgrows.all] at he
    exact (hgrows.shell.finds e.1 0 fun _ => rfl).trans (hset.found e he)

theorem isSome_of_lowerRelocation {external : Bool} {target : SymbolId} {addend : Word64}
    {lowered : Lowered} (hr : r.outcome = .pending .absolute (some target) addend)
    (h : lowerRelocation external d? t owner r = .ok lowered) : lowered.outcome.isSome = true := by
  simp only [lowerRelocation, hr] at h
  split at h
  · split at h
    · simp only [lowerImport] at h
      split at h
      · cases h
        rfl
      · cases h
    · cases h
      rfl
  · cases h
    rfl

theorem patchable_of_fillsWord {external moves : Bool}
    (h : lower external (some d) t = .ok (some d₁, t')) (hfree : owner ∉ d.all)
    (hr : FillsWord t owner r) : Patchable moves d₁ t' owner r.offset := by
  obtain ⟨hevolves, hlowered⟩ := lower_ok h
  have hall : d₁.all = d.all := hevolves.tables
  refine ⟨?_, ?_, ?_, fun _ => ?_⟩
  · rw [← hall] at hfree
    simp only [all, mem_cons, not_mem_nil, or_false, not_or] at hfree ⊢
    exact ⟨hfree.2.2.1, hfree.2.2.2.2.2.2.2.2⟩
  · have hplaced : (t.get owner).kind.isPlaced = true := by
      have hwritable := hr.writable
      cases hkind : (t.get owner).kind <;> simp_all [SymbolKind.isWritable, SymbolKind.isPlaced]
    exact ((hevolves.shell.map isSite).2 owner).trans
      (Bool.and_eq_true_iff.mpr ⟨hr.reachable, hplaced⟩)
  · obtain ⟨lowered, hmap, hrelocations, hbetween⟩ := hlowered owner hfree hr.reachable
    have hmem : r ∈ lowered.map (·.1) := hmap ▸ hr.mem
    obtain ⟨⟨r, outcome?⟩, hx, rfl⟩ := mem_map.mp hmem
    obtain ⟨s₁, result, -, hlower, houtcome, -⟩ := hbetween _ hx
    obtain ⟨target, addend, habsolute⟩ := hr.absolute
    obtain ⟨outcome, hsome⟩ :=
      Option.isSome_iff_exists.mp (isSome_of_lowerRelocation habsolute hlower)
    refine ⟨{ r with outcome }, ?_, rfl, hr.size⟩
    rw [hrelocations]
    refine mem_filterMap.mpr ⟨_, hx, ?_⟩
    rw [remains, show outcome? = some outcome from houtcome.symm.trans hsome]
    rfl
  · have hkind := hevolves.shell.read Symbol.kind fun _ => rfl
    rw [hkind.2 owner]
    exact hr.writable

/-- Asking the loader to adjust words changes only the table of the entries. -/
theorem addRelative_sound (hsound : Sound (Patchable true d t) [] d t) (hreached : Reached d t) :
    Grows [] d t (d.addRelative t).1 (d.addRelative t).2 ∧
      Sound (Patchable true d t) [] (d.addRelative t).1 (d.addRelative t).2 ∧
      ∀ id, id ≠ d.rel → (d.addRelative t).2.get id = t.get id := by
  refine ⟨grows_addRelative d t, hsound.addRelative fun x hx => ?_,
    (addRelative_spec hreached rfl).2.2.1⟩
  obtain ⟨hmem, hmoves⟩ := mem_movingWords.mp hx
  exact ⟨not_mem_of_moves hmoves, Bool.and_eq_true_iff.mpr ⟨hmoves.reachable, hmoves.placed⟩,
    ⟨x.2, hmem, rfl, hmoves.size⟩, nofun⟩

/-- **Tables.** A link that needs tables has them. -/
theorem Staged.tabled (h : Staged o kept s s' u layout t) (hfresh : ∀ id, Fresh (kept.get id))
    (hneeds : o.needsDynamic = true) : ∃ d, Tabled o kept s s' u d := by
  obtain ⟨d₀, hd₀, hrequested, hreached, hother, hfound⟩ :=
    requested_of_makeDynamic hfresh hneeds h.made
  obtain ⟨d?, t₀⟩ := s
  cases hd₀
  obtain ⟨d₁?, t₁⟩ := s'
  obtain ⟨d₁, rfl, -⟩ := steps_lower h.lowered
  obtain ⟨hevolves, -⟩ := lower_ok h.lowered
  have hreached₁ := hreached.lower h.lowered
  have hall₁ : d₁.all = d₀.all := hevolves.tables
  -- the words that the loader is asked for
  have hsound₁ : Sound (Patchable o.isRelocatable d₁ t₁) [] d₁ t₁ :=
    soundLowering_lower (fun _ hd => Option.some.inj hd ▸ hrequested.sound)
      (fun owner r hfree hr => patchable_of_fillsWord h.lowered hfree hr) h.lowered d₁ rfl
  -- they are completed
  obtain ⟨d₂, t₂, hmoved, hgrows₂, hsound₂, hreached₂, hother₂⟩ : ∃ d₂ t₂,
      (if o.isRelocatable then d₁.addRelative t₁ else (d₁, t₁)) = (d₂, t₂) ∧
      Grows [] d₁ t₁ d₂ t₂ ∧ Sound (Patchable o.isRelocatable d₁ t₁) [] d₂ t₂ ∧ Reached d₂ t₂ ∧
      ∀ id, id ≠ d₁.rel → t₂.get id = t₁.get id := by
    split
    · rename_i hrelocatable
      rw [hrelocatable] at hsound₁ ⊢
      obtain ⟨hgrows, hsound, hother⟩ := addRelative_sound hsound₁ hreached₁
      exact ⟨_, _, rfl, hgrows, hsound, hreached₁.addRelative, hother⟩
    · exact ⟨d₁, t₁, rfl, .refl [] d₁ t₁, hsound₁, hreached₁, fun _ _ => rfl⟩
  have hu := finishDynamic_eq h.finished
  rw [hmoved] at hu
  have hgrows := hgrows₂.trans (grows_finish d₂ t₂ o.runPath?)
  have hreached₃ := hreached₂.finish o.runPath?
  obtain ⟨⟨path, hsound₃⟩, htags⟩ := hsound₂.finish o.runPath?
  have hdynamic₂ : d₂.dynamic = d₁.dynamic := by
    have hall₂ := hgrows₂.all
    simp only [all, cons.injEq] at hall₂
    exact hall₂.2.2.2.2.2.2.2.2.1
  have hrelocations : ∀ id, id ∉ [d₁.rel, d₁.dynamic] →
      ((d₂.finish t₂ o.runPath?).2.get id).relocations = (t₁.get id).relocations := by
    intro id hid
    simp only [mem_cons, not_mem_nil, or_false, not_or] at hid
    rw [relocations_finish o.runPath? (hdynamic₂ ▸ hid.2), hother₂ id hid.1]
  generalize d₂.finish t₂ o.runPath? = last at hu hgrows hreached₃ hsound₃ htags hrelocations
  obtain ⟨d, t₃⟩ := last
  subst hu
  have hall : d.all = d₀.all := hgrows.all.trans hall₁
  have hends : [d.rel, d.dynamic] = [d₁.rel, d₁.dynamic] := by
    have hsame := hgrows.all
    simp only [all, cons.injEq] at hsame
    rw [hsame.2.2.1, hsame.2.2.2.2.2.2.2.2.1]
  refine ⟨d, ⟨d₀, rfl, hall.symm, hrequested⟩, fun id hid => hother id (hall ▸ hid),
    ⟨d₁, rfl, hgrows⟩, fun id hid => hrelocations id (hends ▸ hid), hreached₃, fun e he => ?_,
    ⟨path, hsound₃.mono fun owner offset hpatch => ?_⟩, htags⟩
  · rw [named_eq_of_all hall] at he
    exact ((hevolves.shell.trans hgrows.shell).finds e.1 0 fun _ => rfl).trans (hfound e he)
  · obtain ⟨hfree, hsite, hword, hstill⟩ := hpatch
    refine ⟨hends.symm ▸ hfree, ((hgrows.shell.map isSite).2 owner).trans hsite, ?_, ?_⟩
    · rwa [hrelocations owner hfree]
    · have hkind := hgrows.shell.read Symbol.kind fun _ => rfl
      rwa [hkind.2 owner]

end Link

end ArmLink
