import ArmLink.Proofs.Dynamic.Closed
import ArmLink.Proofs.Link.Calls
import ArmLink.Proofs.Link.Requests
import ArmLink.Proofs.Link.Stages
import ArmLink.Proofs.Resolve.Refusal
import ArmLink.Proofs.SymbolTable.Operations

/-!
# Links refer only to what they keep

When symbols are marked, everything that marked symbols refer to is marked as well. From then on the
linker makes tables, lowers relocations, completes the tables and gives addresses. Each of these
steps may add relocations and marks, and none of them makes something that is kept refer to
something that is not.
-/

namespace ArmLink

open SymbolTable DynamicTables

variable {t t' : SymbolTable} {id : SymbolId} {links : List PendingLink} {roots : List SymbolId}

/-! ## Marking -/

namespace SymbolTable

/-- Only the linker's own symbols are kept so far, and they refer to nothing. -/
def Unmarked (t : SymbolTable) : Prop :=
  ∀ id, t.Kept id → (t.get id).special = true ∧ (t.get id).relocations = []

theorem unmarked_initial : initial.Unmarked :=
  forall_get (P := fun s => s.reachable = true → s.special = true ∧ s.relocations = []) (by decide)
    nofun

theorem gathers_unmarked : Gathers (fun kind _ => kind ≠ .undefined) fun s =>
    s.reachable = true → s.special = true ∧ s.relocations = [] where
  new _ _ := nofun
  write _ _ _ _ _ _ _ _ _ _ hs hspecial _ hmark :=
    absurd (hs hmark).1 (Bool.eq_false_iff.mp hspecial)
  place _ _ _ _ hs _ := hs
  provide _ _ _ hs := hs

theorem kept_of_refers (h : Coherent links t) {x : SymbolId} (hid : (t.markReachable roots).Kept id)
    (hunmarked : ¬ t.Kept id) (hrefers : Refers t id x) : (t.markReachable roots).Kept x := by
  obtain ⟨root, hroot, hpath⟩ :=
    ((reachable_markReachable_iff t roots hrefers.lt_size).mp hid).resolve_left hunmarked
  refine (reachable_markReachable_iff t roots (h.lt_size_of_refers hrefers)).mpr (.inr ?_)
  exact ⟨root, hroot, hpath.tail hrefers⟩

/-- **Marking.** What is marked refers to what is marked. -/
theorem closed_markReachable (h : Coherent links t) (ht : t.Unmarked) (roots : List SymbolId) :
    (t.markReachable roots).Closed := by
  have hrelocations := (t.keeps_markReachable roots).read Symbol.relocations fun _ => rfl
  intro id hid r hr target htarget
  rw [hrelocations.2] at hr
  refine kept_of_refers h hid (fun hmarked => ?_) (.target hr htarget)
  rw [(ht id hmarked).2] at hr
  cases hr

theorem kept_root (hid : id ∈ roots) (hlt : id < t.size) : (t.markReachable roots).Kept id :=
  (reachable_markReachable_iff t roots hlt).mpr (.inr ⟨id, hid, .refl⟩)

theorem exported_markReachable : (t.markReachable roots).exported = t.exported := by
  have hkeeps : Keeps (fun s => s.exported && s.isDefined) t (t.markReachable roots) :=
    (t.keeps_markReachable roots).map fun s => s.exported && s.isDefined
  simp only [exported, ids, hkeeps.1, hkeeps.2]

end SymbolTable

namespace Link

open Layout Resolve

variable {o : Options} {objects : List Object} {kept u : SymbolTable} {s s' : Lowering}
  {layout : Layout}

/-! ## What each step preserves -/

/-- What is kept refers only to what is kept, and to that belong the tables and the linker's own
symbols. -/
structure Anchored (s : Lowering) : Prop where
  closed : s.2.Closed
  tables : ∀ table ∈ tables s.1, s.2.Kept table
  special : ∀ id, (s.2.get id).special = true → s.2.Kept id

/-- Whatever keeps the shells of symbols keeps the linker's own ones. -/
theorem kept_special (h : ∀ id, (t.get id).special = true → t.Kept id) (hshell : Keeps shell t t') :
    ∀ id, (t'.get id).special = true → t'.Kept id := by
  intro id hid
  have hmarks := hshell.read Symbol.reachable fun _ => rfl
  have hspecial := hshell.read Symbol.special fun _ => rfl
  rw [hmarks.kept]
  exact h id ((hspecial.2 id).symm.trans hid)

theorem gathering_coherent : Gathering objects fun t => ∃ links, Coherent links t := by
  refine ⟨?_, ?_⟩
  · rintro t ob - index t' ⟨links, hlinks⟩ hmerge
    have hmerged := hlinks.merge ob index
    rw [hmerge] at hmerged
    exact ⟨_, hmerged⟩
  · rintro t name value id t' ⟨links, hlinks⟩ hset
    have hadded := hlinks.addStringVariable name value
    rw [hset] at hadded
    exact ⟨_, hadded⟩

/-- Until symbols are marked, only the linker's own are kept. -/
theorem gathering_unmarked : Gathering objects fun t => t.Unmarked ∧ ∃ links, Coherent links t :=
  gathers_unmarked.gathering_defined.and gathering_coherent

theorem anchored_of_collect (h : collect o objects = .ok kept) :
    Anchored (none, kept) ∧ ∀ id ∈ kept.exported, kept.Kept id := by
  have hspecial := (collected h).unlinked
  obtain ⟨settings, t, ⟨ht, links, hlinks⟩, rfl⟩ :=
    gathering_unmarked.collect ⟨unmarked_initial, [], coherent_initial⟩ h
  refine ⟨⟨closed_markReachable hlinks ht _, nofun, fun id => (hspecial id).reachable⟩, ?_⟩
  intro id hid
  rw [exported_markReachable] at hid
  have hlt : id < t.size := mem_ids.mp (List.mem_filter.mp hid).1
  exact kept_root (List.mem_append_right _ hid) hlt

theorem anchored_makeDynamic (hkept : Anchored (none, kept))
    (hexported : ∀ id ∈ kept.exported, kept.Kept id) (hfresh : ∀ id, Fresh (kept.get id))
    (h : (makeDynamic (m := Id) .silent o kept).run = .ok s) : Anchored s := by
  simp only [makeDynamic] at h
  split at h
  · obtain ⟨⟨d, t⟩, hstep, h⟩ := run_bind_eq_ok.mp h
    have hsetup := mapError_eq_ok.mp hstep
    have hset := setup_ok hsetup
    obtain ⟨hall, hshell, -⟩ := grows_exportSymbols d t
    have hmarks := hshell.read Symbol.reachable fun _ => rfl
    have hspecial : ∀ id, (t.get id).special = true → t.Kept id := by
      intro id hid
      by_cases htable : id ∈ d.all
      · exact hset.kept_table id htable
      · rw [hset.other id htable] at hid
        exact hset.kept_of_kept (hkept.special id hid)
    cases h
    refine ⟨?_, fun table htable => ?_, kept_special hspecial hshell⟩
    · have hgain := Growths.allGain (growths_exportSymbols d t (hset.kept_exported hexported))
      exact hgain.closed (closed_setup hkept.closed hfresh hsetup)
    · rw [hmarks.kept]
      exact hset.kept_table table (hall ▸ htable)
  · cases h
    exact hkept

theorem Anchored.lower {external : Bool} (h : Anchored s)
    (hlower : DynamicTables.lower external s.1 s.2 = .ok s') : Anchored s' := by
  obtain ⟨hevolves, -⟩ := lower_ok hlower
  have hmarks := hevolves.shell.read Symbol.reachable fun _ => rfl
  refine ⟨closed_lower h.closed h.tables hlower, fun table htable => ?_,
    kept_special h.special hevolves.shell⟩
  rw [hmarks.kept]
  exact h.tables table (hevolves.tables ▸ htable)

theorem Anchored.finish (h : Anchored s)
    (hfinish : (finishDynamic (m := Id) .silent o s.1 s.2).run = .ok u) : Anchored (none, u) := by
  obtain ⟨d?', hevolves⟩ := evolves_finishDynamic hfinish
  refine ⟨?_, nofun, kept_special h.special hevolves.shell⟩
  obtain ⟨d?, t⟩ := s
  cases d? with
  | none =>
    cases hfinish
    exact h.closed
  | some d =>
    rw [finishDynamic_eq hfinish]
    split
    · have htables : ∀ table ∈ (d.addRelative t).1.all, t.Kept table :=
        (grows_addRelative d t).all ▸ h.tables
      refine AllGain.closed ?_ h.closed
      exact (allGain_addRelative d t).trans (Growths.allGain (growths_finish _ o.runPath? htables))
    · exact (Growths.allGain (growths_finish t o.runPath? h.tables)).closed h.closed

/-- Giving addresses keeps nothing that was not kept, as long as the linker's own symbols were. -/
theorem kept_of_computed {t₀ : SymbolTable} {fills : List Fill}
    (hspecial : ∀ id, (u.get id).special = true → u.Kept id)
    (hcomputed : Computed u layout t t₀ fills) (hid : t.Kept id) : u.Kept id := by
  cases hown : (u.get id).special with
  | true => exact hspecial id hown
  | false => exact hcomputed.marked hown hid

/-- Giving addresses. A sentinel that was not kept would be now, but it was. -/
theorem Anchored.compute {relocatable : Bool} {first : Nat} (h : Anchored (none, u))
    (hs : u.HasSentinels) (hcompute : Layout.compute u relocatable first = .ok (layout, t)) :
    Anchored (none, t) := by
  obtain ⟨t₀, fills, hcomputed⟩ := compute_ok hs hcompute
  have hrelocations := hcomputed.keeps.read Symbol.relocations fun _ => rfl
  have hspecial := hcomputed.keeps.read Symbol.special fun _ => rfl
  refine ⟨fun id hid r hr target htarget => ?_, nofun, fun id hid => ?_⟩
  · have hbefore : u.Kept id := kept_of_computed h.special hcomputed hid
    rw [hrelocations.2] at hr
    exact hcomputed.marks (h.closed id hbefore r hr target htarget)
  · exact hcomputed.marks (h.special id ((hspecial.2 id).symm.trans hid))

/-- **Stages.** In every state of a link, what is kept refers only to what is kept. -/
theorem Staged.closed (h : Staged o kept s s' u layout t) (hkept : collect o objects = .ok kept) :
    kept.Closed ∧ s.2.Closed ∧ s'.2.Closed ∧ u.Closed ∧ t.Closed := by
  obtain ⟨hcollected, hexported⟩ := anchored_of_collect hkept
  have hmade := anchored_makeDynamic hcollected hexported (fresh_of_collect hkept) h.made
  have hlowered := hmade.lower h.lowered
  have hfinished := hlowered.finish h.finished
  have hcomputed := hfinished.compute (h.sentinels (collected hkept)) h.computed
  exact ⟨hcollected.closed, hmade.closed, hlowered.closed, hfinished.closed, hcomputed.closed⟩

/-! ## No link is refused for it -/

/-- No relocation is refused because its target is not kept: its owner is kept. -/
theorem prepare_ne_unreachable (objects : List Object) (site : Site) :
    prepare o objects ≠ .error (.resolve (.unreachable site)) := by
  intro h
  obtain ⟨kept, hkept⟩ := exists_collect_of_resolve h
  obtain ⟨s, s', u, layout, t, failure, hstaged, happly, hfailure⟩ := staged_of_resolve hkept h
  obtain ⟨-, -, -, -, hclosed⟩ := hstaged.closed hkept
  obtain ⟨id, r, hsite, hr, hsettle⟩ := apply_error happly
  rw [hfailure] at hsettle
  cases refused_of_settle hsettle rfl with
  | unreachable houtcome hnot =>
    have hid : t.Kept id := (Bool.and_eq_true_iff.mp hsite).1
    have htarget := hclosed id hid r hr _ (by rw [Relocation.target?, houtcome])
    cases hnot.symm.trans htarget

section Run

variable {α β : Type} {w : Surroundings}

/-- Whether a link fails for a relocation that has no value. -/
def isResolve : LinkError → Bool
  | .resolve _ => true
  | _ => false

/-- The step does not fail for a relocation that has no value. -/
def Avoids (act : Logged α) : Prop :=
  Ends act fun result _ => ∀ e, result = .error e → isResolve e = false

theorem Avoids.bind {act : Logged α} {next : α → Logged β} (h : Avoids act)
    (hnext : ∀ a, Avoids (next a)) : Avoids (act >>= next) := by
  refine Ends.bind h (fun e _ he e' heq => ?_) fun a _ _ => (hnext a).weaken fun _ _ h => h
  cases heq
  exact he e rfl

theorem Avoids.during {act : Logged α} (h : Avoids act) (phase : Phase) :
    Avoids (Link.during (observerFor w.host o) phase act) :=
  Ends.during h phase fun _ _ _ h _ => h

theorem avoids_plainStep {result : Except LinkError α}
    (h : ∀ e, result = .error e → isResolve e = false) : Avoids (plainStep result) :=
  (ends_plainStep result).weaken fun _ _ hr => hr.1 ▸ h

theorem isResolve_of_ok {a : α} : ∀ e, (.ok a : Except LinkError α) = .error e →
    isResolve e = false := by
  intro e h
  cases h

theorem avoids_pure (a : α) : Avoids (pure a) := avoids_plainStep isResolve_of_ok

theorem avoids_step {compute : Unit → Except LinkError α} (phase : Phase)
    (h : ∀ e, compute () = .error e → isResolve e = false) :
    Avoids (step (observerFor w.host o) phase compute) :=
  (ends_step phase compute).weaken fun _ _ hr => hr.1 ▸ h

theorem avoids_ask {request : Request} {answer : List Request → α} :
    Avoids (ExceptT.lift (Surroundings.ask request answer)) :=
  ends_ask.weaken fun _ _ ⟨⟨_, hr⟩, _⟩ => hr ▸ isResolve_of_ok

theorem isResolve_of_mapError {ε : Type} {x : Except ε α} {f : ε → LinkError}
    (hf : ∀ reason, isResolve (f reason) = false) :
    ∀ e, x.mapError f = .error e → isResolve e = false := by
  intro e h
  obtain ⟨reason, -, rfl⟩ := mapError_eq_error.mp h
  exact hf reason

theorem isResolve_of_readObject {path : String} {bytes : Except FileFault Bytes} :
    ∀ e, readObject path bytes = .error e → isResolve e = false := by
  intro e h
  simp only [readObject] at h
  split at h
  · cases h
    rfl
  · cases h
    rfl
  · split at h
    · cases h
      rfl
    · exact isResolve_of_mapError (fun _ => rfl) e h

theorem avoids_readAll (paths : List String) : Avoids (readAll w.host paths) := by
  induction paths with
  | nil => exact avoids_pure []
  | cons path paths ih =>
    exact avoids_ask.bind fun _ => (avoids_plainStep isResolve_of_readObject).bind fun _ =>
      ih.bind fun _ => avoids_pure _

theorem avoids_identify (id : BuildId) (image : Array UInt8) :
    Avoids (identify w.host (observerFor w.host o) id image) := by
  cases id with
  | fast => exact avoids_step .computeBuildId isResolve_of_ok
  | uuid => exact avoids_ask
  | _ => exact avoids_pure _

theorem avoids_fillFile (placed : Placed) (plan : Image.Plan) :
    Avoids (fillFile w.host (observerFor w.host o) o placed plan) := by
  have hwrite {β : Type} {x : Except Image.WriteError β} :
      ∀ e, x.mapError LinkError.write = .error e → isResolve e = false :=
    isResolve_of_mapError fun _ => rfl
  refine Avoids.bind ?_ fun _ => avoids_ask.bind fun _ =>
    avoids_plainStep (isResolve_of_mapError fun _ => rfl)
  refine (avoids_plainStep hwrite).bind fun _ => (avoids_step .writeSections hwrite).bind fun _ =>
    (avoids_plainStep hwrite).bind fun image => ?_
  split
  · exact avoids_pure _
  · exact (avoids_identify o.buildId image).bind fun _ => avoids_plainStep hwrite

theorem avoids_writeFile (placed : Placed) (plan : Image.Plan) :
    Avoids (writeFile w.host (observerFor w.host o) o placed plan) := by
  refine avoids_ask.bind fun _ =>
    (avoids_plainStep (isResolve_of_mapError fun _ => rfl)).bind fun _ => ?_
  -- a failure is passed on when the file was taken away
  refine Ends.bind (avoids_fillFile placed plan).lift (fun _ _ ⟨_, h, _⟩ => nomatch h) ?_
  rintro result _ ⟨_, ⟨⟩, hresult⟩
  cases result with
  | ok => exact (avoids_step .unmapFile isResolve_of_ok).weaken fun _ _ h => h
  | error reason =>
    have hpassed : Avoids (plainStep (.error reason) : Logged Unit) := avoids_plainStep hresult
    exact (avoids_ask.bind fun _ => hpassed).weaken fun _ _ h => h

theorem avoids_emit (placed : Placed) : Avoids (emit w.host o placed) := by
  refine Avoids.during ?_ .writeOutput
  refine (avoids_plainStep (isResolve_of_mapError fun _ => rfl)).bind fun plan => ?_
  have hfile : Avoids (Link.during (observerFor w.host o) .writeFile
      (writeFile w.host (observerFor w.host o) o placed plan)) :=
    (avoids_writeFile placed plan).during .writeFile
  split
  · exact avoids_ask.bind fun _ => hfile
  · exact (avoids_pure ()).bind fun _ => hfile

end Run

/-- **Nothing that is not kept is referred to.** From where symbols are marked to where their
relocations get values, every relocation of a symbol that is kept leads to a symbol that is kept, be
the relocation one of the inputs or of the tables that the linker makes. So no link is refused
because something that it keeps refers to something that it does not, whatever its inputs, its
options and its surroundings are. -/
theorem link_refers_to_kept (o : Options) :
    (∀ objects kept s s' u layout t, collect o objects = .ok kept →
      Staged o kept s s' u layout t →
        kept.Closed ∧ s.2.Closed ∧ s'.2.Closed ∧ u.Closed ∧ t.Closed) ∧
    (∀ objects site, prepare o objects ≠ .error (.resolve (.unreachable site))) ∧
    ∀ (w : Surroundings) log site,
      ((run w.host o).run log).1 ≠ .error (.resolve (.unreachable site)) := by
  refine ⟨fun objects kept s s' u layout t hkept h => h.closed hkept, prepare_ne_unreachable, ?_⟩
  intro w log site
  have hrun : Ends (ExceptT.mk (run w.host o)) fun result _ =>
      result ≠ .error (.resolve (.unreachable site)) := by
    refine Ends.during ?_ .link fun _ _ _ h _ => h
    refine Ends.bind ((avoids_readAll o.inputs).during .readInputs) (fun e _ he heq => ?_) ?_
    · cases heq
      cases he _ rfl
    intro objects _ _
    refine Ends.bind (ends_prepareWith objects) (fun e _ he heq => ?_) fun placed _ _ => ?_
    · cases heq
      exact prepare_ne_unreachable objects site he.1.symm
    · refine (avoids_emit placed).weaken fun _ _ h heq => ?_
      cases h _ heq
  obtain ⟨result, more, hended, hresult⟩ := hrun log
  have hfirst : ((run w.host o).run log).1 = result := congrArg Prod.fst hended
  rw [hfirst]
  exact hresult

/-- A program that calls an import and uses data. It does not use the code next to it, which refers
to other data. -/
def spareSample : List Object :=
  [{ path := "a"
     symbols :=
       [programCode [1, 2, 3, 4, 5, 6, 7, 8]
          [.pending 0 4 .call (some "puts") 0xebfffffe,
           .pending 4 4 .absolute (some "used") 0],
        { programCode [1, 2, 3, 4] [.pending 0 4 .absolute (some "unused") 0] with
          name := "spare" },
        programTable "used" 4 [1, 2, 3, 4] [],
        programTable "unused" 4 [1, 2, 3, 4] []]
     imports := [{ name := "puts" }] }]

/-- The spare code is not kept although it refers to something, and what is kept refers to what is
kept in the end. -/
theorem link_refers_to_kept_sample : ∃ kept s s' u layout t,
    collect callOptions spareSample = .ok kept ∧ Staged callOptions kept s s' u layout t ∧
      (kept.get 22).reachable = false ∧
      (kept.get 22).relocations = [.pending 0 4 .absolute (some 23) 0] ∧
      (kept.get 23).reachable = false ∧ (kept.get 19).reachable = true ∧ t.Closed := by
  obtain ⟨kept, hkept, ⟨placed, hplaced⟩, hspare, hrelocations, hunused, hmain⟩ :
      ∃ kept, collect callOptions spareSample = .ok kept ∧
        (∃ placed, prepare callOptions spareSample = .ok placed) ∧
        (kept.get 22).reachable = false ∧
        (kept.get 22).relocations = [.pending 0 4 .absolute (some 23) 0] ∧
        (kept.get 23).reachable = false ∧ (kept.get 19).reachable = true := by
    decide +kernel
  obtain ⟨s, s', u, t, hstaged, -⟩ := staged_of_prepare hkept hplaced
  obtain ⟨-, -, -, -, hclosed⟩ := (link_refers_to_kept callOptions).1 _ _ _ _ _ _ _ hkept hstaged
  exact ⟨kept, s, s', u, placed.layout, t, hkept, hstaged, hspare, hrelocations, hunused, hmain,
    hclosed⟩

end Link

end ArmLink
