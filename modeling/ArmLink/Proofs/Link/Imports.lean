import ArmLink.Proofs.Link.Calls
import ArmLink.Proofs.Link.Stages
import ArmLink.Proofs.Resolve.Refusal

/-!
# References to imports

Resolution refuses references to imports: with tables for the dynamic loader, lowering should have
taken care of them. It does, but for raw relocations by which a symbol wants the distance to an
import, or the import's distance from the global offset table.
-/

namespace ArmLink

open SymbolTable DynamicTables
open Relocation (Kind)

namespace Resolve

variable {c : Context} {t : SymbolTable} {owner : SymbolId} {r : Relocation SymbolId} {site : Site}

theorem import_of_settle (h : settle c t owner r = .error (.importWithoutLoader site)) :
    ∃ target addend, r.outcome = .pending site.kind (some target) addend ∧
      (t.get target).isImport = true := by
  cases refused_of_settle h rfl with
  | importWithoutLoader hr _ himport => exact ⟨_, _, hr, himport⟩

end Resolve

namespace Link

open Layout Resolve

variable {o : Options} {objects : List Object} {kept u t : SymbolTable} {s s' : Lowering}
  {layout : Layout} {id : SymbolId} {r : Relocation SymbolId} {site : Site}

/-- What resolution refuses for the lack of a loader has slipped through lowering. -/
theorem Staged.slips (h : Staged o kept s s' u layout t) (hkept : collect o objects = .ok kept)
    (hneeds : o.needsDynamic = true) (hsite : isSite (t.get id) = true)
    (hr : r ∈ (t.get id).relocations)
    (hsettle : settle ⟨layout, false, gotAddress t⟩ t id r = .error (.importWithoutLoader site)) :
    ∃ target, (kept.get id).reachable = true ∧ (kept.get target).isImport = true ∧
      Slips kept id site.kind target := by
  obtain ⟨target, addend, houtcome, himport⟩ := import_of_settle hsettle
  obtain ⟨d, htabled⟩ := h.tabled (fresh_of_collect hkept) hneeds
  obtain ⟨d₀, hd₀, hall, hrequested⟩ := htabled.requested
  obtain ⟨d₁, -, hgrows⟩ := htabled.grows
  obtain ⟨hevolves, -⟩ := lower_ok h.lowered
  have hshell := h.keeps_shell
  have hstarted := started_of_makeDynamic (collected hkept) h.made
  obtain ⟨t₀, fills, hcomputed⟩ := compute_ok (h.sentinels (collected hkept)) h.computed
  -- layout changes neither relocations nor what is an import
  have hkeeps := hcomputed.keeps.read Symbol.relocations fun _ => rfl
  rw [hkeeps.2 id] at hr
  have himport : (u.get target).isImport = true := hcomputed.imports himport
  by_cases htable : id ∈ d.all
  · -- the relocations of tables are clean
    obtain ⟨path, hsound⟩ := htabled.sound
    obtain ⟨_, _, _, hclean, -, htarget⟩ := (hsound.filled id htable).each r hr
    cases hclean.symm.trans houtcome
    cases htarget.symm.trans himport
  have hfree : id ∉ [d.rel, d.dynamic] := by
    simp only [all, List.mem_cons, List.not_mem_nil, or_false, not_or] at htable ⊢
    exact ⟨htable.2.2.1, htable.2.2.2.2.2.2.2.2⟩
  rw [htabled.relocations id hfree] at hr
  obtain ⟨hsame, hrelocations⟩ := htabled.other id htable
  have hreach : (kept.get id).reachable = true := by
    have hshellId : shell (u.get id) = shell (kept.get id) := (hshell.2 id).trans hsame
    cases hspecial : (kept.get id).special with
    | true => exact ((collected hkept).unlinked id).reachable hspecial
    | false =>
      have hreach := hcomputed.marked ((congrArg Symbol.special hshellId).trans hspecial)
        (Bool.and_eq_true_iff.mp hsite).1
      exact (congrArg Symbol.reachable hshellId).symm.trans hreach
  have hcomplete := complete_of_lower
    (fun d hd => Option.some.inj (hd₀.symm.trans hd) ▸ hrequested) h.lowered
  have himportLowered : (s'.2.get target).isImport = true :=
    ((hgrows.shell.map Symbol.isImport).2 target).symm.trans himport
  have himportKept : (kept.get target).isImport = true :=
    (hstarted.imports target).symm.trans
      (((hevolves.shell.map Symbol.isImport).2 target).symm.trans himportLowered)
  obtain ⟨r₀, hr₀, hslips⟩ := hcomplete.imports (hstarted.isSome.trans hneeds) id
    ((congrArg Symbol.reachable hsame).trans hreach) r hr _ target addend houtcome himportLowered
  exact ⟨target, hreach, himportKept, r₀, hrelocations ▸ hr₀, hslips⟩

/-- **References.** Whenever lowering succeeds, no raw relocation is left on a symbol that the
output needs; with tables, which were made and then asked for any number of things, only raw
distances still refer to an import. So a link with tables is refused for the lack of a loader only
if an input has such a raw relocation. -/
theorem references_lowered {external : Bool} {d? : Option DynamicTables} {t : SymbolTable}
    {s' : Lowering} (hd : ∀ d, d? = some d → Requested d t) (h : lower external d? t = .ok s') :
    Complete d?.isSome t s'.2 ∧
    ∀ (o : Options) (objects : List Object) (kept : SymbolTable) (site : Site),
      o.needsDynamic = true → collect o objects = .ok kept →
      prepare o objects = .error (.resolve (.importWithoutLoader site)) →
        ∃ id target, (kept.get id).reachable = true ∧ (kept.get target).isImport = true ∧
          Slips kept id site.kind target := by
  refine ⟨complete_of_lower hd h, ?_⟩
  intro o objects kept site hneeds hkept h
  obtain ⟨s, s', u, layout, t, failure, hstaged, happly, herror⟩ := staged_of_resolve hkept h
  rw [isExternal_of_needsDynamic hneeds] at happly
  obtain ⟨id, r, hsite, hr, hsettle⟩ := apply_error happly
  rw [herror] at hsettle
  exact ⟨id, hstaged.slips hkept hneeds hsite hr hsettle⟩

/-- A program that calls an import and wants the distance to it. -/
def distanceSample : List Object :=
  [{ path := "a"
     symbols :=
       [programCode [1, 2, 3, 4, 5, 6, 7, 8]
          [.pending 0 4 .call (some "puts") 0xebfffffe,
           .pending 4 4 (.elf Elf.RelocationType.rel32) (some "puts") 0]]
     imports := [{ name := "puts" }] }]

/-- The relocations of the program are lowered, and then its link fails. -/
theorem lower_distanceSample : ∃ kept, collect callOptions distanceSample = .ok kept ∧
    ∃ d t, setup kept = .ok (d, t) ∧ ∃ s', lower false (some d) t = .ok s' ∧
      (s'.2.get 19).reachable = true ∧
      .pending 4 4 .pcRelative (some 20) 4 ∈ (s'.2.get 19).relocations ∧
      (s'.2.get 20).isImport = true ∧ prepare callOptions distanceSample =
        .error (.resolve (.importWithoutLoader ⟨.pcRelative, "`puts`", "`main`", 4⟩)) := by
  decide +kernel

theorem references_lowered_sample : ∃ kept d t s' site,
    collect callOptions distanceSample = .ok kept ∧ Requested d t ∧
      lower false (some d) t = .ok s' ∧ Complete true t s'.2 ∧ callOptions.needsDynamic = true ∧
      prepare callOptions distanceSample = .error (.resolve (.importWithoutLoader site)) ∧
      ∃ id target, (kept.get id).reachable = true ∧ (kept.get target).isImport = true ∧
        Slips kept id site.kind target := by
  obtain ⟨kept, hkept, d, t, hsetup, s', hlower, -, -, -, hprepare⟩ := lower_distanceSample
  have hrequested : Requested d t := ⟨kept, d, t, [], fresh_of_collect hkept, hsetup, nofun, rfl⟩
  obtain ⟨hcomplete, hrefused⟩ :=
    references_lowered (fun _ hd => Option.some.inj hd ▸ hrequested) hlower
  exact ⟨kept, d, t, s', _, hkept, hrequested, hlower, hcomplete, rfl, hprepare,
    hrefused callOptions distanceSample kept _ rfl hkept hprepare⟩

/-- **A distance slips through.** Lowering succeeds and leaves a reference to an import, for which
the link is refused although it has tables. -/
theorem distance_slips_through : ∃ kept d t s', collect callOptions distanceSample = .ok kept ∧
    setup kept = .ok (d, t) ∧ lower false (some d) t = .ok s' ∧ (s'.2.get 19).reachable = true ∧
    .pending 4 4 .pcRelative (some 20) 4 ∈ (s'.2.get 19).relocations ∧
    (s'.2.get 20).isImport = true ∧ callOptions.needsDynamic = true ∧
    prepare callOptions distanceSample =
      .error (.resolve (.importWithoutLoader ⟨.pcRelative, "`puts`", "`main`", 4⟩)) := by
  obtain ⟨kept, hkept, d, t, hsetup, s', hlower, hreach, hmem, himport, hprepare⟩ :=
    lower_distanceSample
  exact ⟨kept, d, t, s', hkept, hsetup, hlower, hreach, hmem, himport, rfl, hprepare⟩

end Link

end ArmLink
