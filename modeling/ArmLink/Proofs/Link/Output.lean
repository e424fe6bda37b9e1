import ArmLink.Proofs.Image.Write
import ArmLink.Proofs.Link.Prepare
import ArmLink.Proofs.Link.Requests

/-!
# When the output file is touched

The output file is made once its plan is settled, and every plan can be carried out. So a link that
fails has not asked for any file to be changed, unless the file system refused the output file.
-/

namespace ArmLink.Link

open Image Layout Resolve List

variable {w : Surroundings} {o : Options} {objects : List Object} {placed : Placed} {plan : Plan}

/-! ## Plans can be carried out -/

/-- **Plans.** Whatever is planned for a prepared link can be written. -/
theorem exists_write_of_prepare (hprepare : prepare o objects = .ok placed)
    (hplan : Image.plan placed.table placed.layout o placed.relocations = .ok plan) {uuid : Bytes}
    (huuid : uuid.length = 16) :
    ∃ image, plan.write placed.table placed.layout o.buildId uuid = .ok image ∧
      image.size = plan.fileSize := by
  obtain ⟨kept, hkept, -⟩ := run_bind_eq_ok.mp hprepare
  obtain ⟨s, s', s'', t, hstarted, hlower, hfinish, hcompute, happly⟩ := prepare_ok hkept hprepare
  have hevolves : DynamicTables.Evolves s.2.ids s s'' :=
    (DynamicTables.lower_ok hlower).1.trans (hfinish.mono nofun)
  have hsentinels : s''.2.HasSentinels := hstarted.sentinels.reads hevolves.shell fun _ => rfl
  obtain ⟨t₀, fills, hc⟩ := compute_ok hsentinels hcompute
  obtain ⟨hkeeps, happlied⟩ := apply_ok happly
  exact exists_write hc hkeeps happlied (plan_ok hplan) huuid

/-! ## Filling the file -/

/-- The bytes are those of the planned file, with one build id or another. -/
def IsImage (o : Options) (placed : Placed) (plan : Plan) (image : Array UInt8) : Prop :=
  ∃ uuid, plan.write placed.table placed.layout o.buildId uuid = .ok image

/-- The output file gets bytes of which `P` holds. -/
def Fills (o : Options) (P : Array UInt8 → Prop) (more : List Request) : Prop :=
  ∃ image, P image ∧ Request.fill o.output image ∈ more

theorem Fills.of_subset {P : Array UInt8 → Prop} {more more' : List Request} (h : Fills o P more)
    (hsubset : more ⊆ more') : Fills o P more' := by
  obtain ⟨image, himage, hmem⟩ := h
  exact ⟨image, himage, hsubset hmem⟩

theorem ends_identify (id : BuildId) (image : Array UInt8) :
    Ends (identify w.host (observerFor w.host o) id image) fun r _ =>
      ∃ uuid : Bytes, uuid.length = 16 ∧ r = .ok (buildIdBytes id uuid image) := by
  have hzeros := Bytes.length_zeros 16
  cases id with
  | fast => exact (ends_step _ _).weaken fun _ _ h => ⟨Bytes.zeros 16, hzeros, h.1⟩
  | uuid =>
    refine ends_ask.weaken ?_
    rintro _ _ ⟨⟨log, rfl⟩, -⟩
    exact ⟨(w.uuid log).val, (w.uuid log).property, rfl⟩
  | none => exact (ends_pure _).weaken fun _ _ h => ⟨Bytes.zeros 16, hzeros, h.1⟩
  | bytes id => exact (ends_pure _).weaken fun _ _ h => ⟨Bytes.zeros 16, hzeros, h.1⟩

section

variable (hwrite : ∀ uuid : Bytes, uuid.length = 16 →
  ∃ image, plan.write placed.table placed.layout o.buildId uuid = .ok image)
include hwrite

theorem write_split : ∃ image₁ image₂ image₃, plan.start = .ok image₁ ∧
      putSymbols placed.table placed.layout image₁ = .ok image₂ ∧
      plan.complete image₂ = .ok image₃ ∧ ∀ uuid : Bytes, uuid.length = 16 →
        ∃ image, plan.identify (buildIdBytes o.buildId uuid image₃) image₃ = .ok image ∧
          IsImage o placed plan image := by
  obtain ⟨image, himage⟩ := hwrite _ (Bytes.length_zeros 16)
  obtain ⟨image₁, hstart, himage⟩ := bind_eq_ok.mp himage
  obtain ⟨image₂, hsymbols, himage⟩ := bind_eq_ok.mp himage
  obtain ⟨image₃, hcomplete, -⟩ := bind_eq_ok.mp himage
  refine ⟨image₁, image₂, image₃, hstart, hsymbols, hcomplete, fun uuid huuid => ?_⟩
  obtain ⟨image, himage⟩ := hwrite uuid huuid
  have hwritten : IsImage o placed plan image := ⟨uuid, himage⟩
  obtain ⟨_, hstart', himage⟩ := bind_eq_ok.mp himage
  cases Except.ok.inj (hstart.symm.trans hstart')
  obtain ⟨_, hsymbols', himage⟩ := bind_eq_ok.mp himage
  cases Except.ok.inj (hsymbols.symm.trans hsymbols')
  obtain ⟨_, hcomplete', himage⟩ := bind_eq_ok.mp himage
  cases Except.ok.inj (hcomplete.symm.trans hcomplete')
  exact ⟨image, himage, hwritten⟩

/-- A plan that can be carried out is carried out. -/
theorem ends_fillImage : Ends (fillImage w.host (observerFor w.host o) o placed plan) fun r _ =>
      ∃ image, r = .ok image ∧ IsImage o placed plan image := by
  obtain ⟨image₁, image₂, image₃, hstart, hsymbols, hcomplete, hidentify⟩ := write_split hwrite
  refine ((ends_plainStep _).of_eq (mapError_eq_ok.mpr hstart)).andThen
    (((ends_step _ _).of_eq (mapError_eq_ok.mpr hsymbols)).andThen
      (((ends_plainStep _).of_eq (mapError_eq_ok.mpr hcomplete)).andThen ?_ ?_) ?_) ?_
  · split
    · rename_i hnote
      obtain ⟨image, himage, hwritten⟩ := hidentify _ (Bytes.length_zeros 16)
      rw [Plan.identify, Option.isNone_iff_eq_none.mp hnote] at himage
      obtain rfl := Except.ok.inj himage
      exact (ends_pure _).weaken fun r _ h => ⟨_, h.1, hwritten⟩
    · refine (ends_identify o.buildId image₃).bind ?_ ?_
      · rintro e _ ⟨_, -, h⟩
        cases h
      · rintro id _ ⟨uuid, huuid, h⟩
        obtain rfl := Except.ok.inj h
        obtain ⟨image, himage, hwritten⟩ := hidentify uuid huuid
        refine ((ends_plainStep _).of_eq (mapError_eq_ok.mpr himage)).weaken ?_
        rintro r _ ⟨hr, -⟩
        exact ⟨image, hr, hwritten⟩
  all_goals exact fun _ _ _ _ h => h

theorem ends_fillFile (hfill : ∀ log bytes, w.fill log o.output bytes = .ok ()) :
    Ends (fillFile w.host (observerFor w.host o) o placed plan) fun r more =>
      r = .ok () ∧ Fills o (IsImage o placed plan) more := by
  refine (ends_fillImage hwrite).bind ?_ ?_
  · rintro e more ⟨_, h, -⟩
    cases h
  · rintro image more ⟨_, h, himage⟩
    obtain rfl := Except.ok.inj h
    refine ends_ask_bind fun log => ?_
    rw [hfill log image]
    refine (ends_plainStep _).weaken ?_
    rintro r more' ⟨hr, -⟩
    exact ⟨hr, image, himage, mem_append_right more mem_cons_self⟩

/-- **The output file.** The file is made and gets the planned bytes, if the file system allows. -/
theorem ends_writeFile (hcreate : ∀ log, w.create log o.output = .ok ())
    (hfill : ∀ log bytes, w.fill log o.output bytes = .ok ()) :
    Ends (writeFile w.host (observerFor w.host o) o placed plan) fun r more =>
      r = .ok () ∧ Fills o (IsImage o placed plan) more := by
  refine ends_ask_bind fun log => ?_
  rw [hcreate log]
  refine (ends_plainStep _).andThen ?_ fun r before more _ h => ⟨h.1, h.2.of_subset ?_⟩
  · refine (ends_fillFile hwrite hfill).lift.bind ?_ ?_
    · rintro e more ⟨_, h, -⟩
      cases h
    · rintro filled more ⟨_, h, rfl, hmore⟩
      obtain rfl := Except.ok.inj h
      refine (ends_step _ _).weaken ?_
      rintro r more' ⟨hr, -⟩
      exact ⟨hr, hmore.of_subset fun _ h => mem_cons_of_mem _ (mem_append_left more' h)⟩
  · exact cons_subset_cons _ (subset_append_right before more)

end

/-! ## The whole link -/

/-- A link that fails has changed no file, and one that succeeds has given the output file bytes of
which `P` holds. -/
structure Careful (o : Options) (P : Array UInt8 → Prop) (result : Except LinkError Unit)
    (more : List Request) : Prop where
  untouched : ∀ e, result = .error e → Untouched more
  fills : result = .ok () → Fills o P more

namespace Careful

variable {P Q : Array UInt8 → Prop} {result : Except LinkError Unit} {e : LinkError}
  {before more after : List Request}

theorem failed (hmore : Untouched more) : Careful o P (.error e) more :=
  ⟨fun _ _ => hmore, fun h => nomatch h⟩

theorem done (hfills : Fills o P more) : Careful o P (.ok ()) more :=
  ⟨fun _ h => (nomatch h), fun _ => hfills⟩

theorem append_left (h : Careful o P result more) (hbefore : Untouched before) :
    Careful o P result (before ++ more) :=
  ⟨fun e he => untouched_append.mpr ⟨hbefore, h.untouched e he⟩,
    fun hok => (h.fills hok).of_subset (subset_append_right before more)⟩

theorem append_right (h : Careful o P result more) (hafter : Untouched after) :
    Careful o P result (more ++ after) :=
  ⟨fun e he => untouched_append.mpr ⟨h.untouched e he, hafter⟩,
    fun hok => (h.fills hok).of_subset (subset_append_left more after)⟩

theorem imp (h : Careful o P result more) (hPQ : ∀ image, P image → Q image) :
    Careful o Q result more := by
  refine ⟨h.untouched, fun hok => ?_⟩
  obtain ⟨image, himage, hmem⟩ := h.fills hok
  exact ⟨image, hPQ image himage, hmem⟩

end Careful

/-- **Emit.** If there is no plan the link fails before any file is changed, and otherwise the
output file gets the planned bytes. -/
theorem ends_emit (hcreate : ∀ log, w.create log o.output = .ok ())
    (hfill : ∀ log bytes, w.fill log o.output bytes = .ok ())
    (hprepare : prepare o objects = .ok placed) : Ends (emit w.host o placed)
      (Careful o fun image => ∃ uuid, Link.image o placed uuid = .ok image) := by
  refine Ends.during ?_ .writeOutput fun _ _ _ h hafter => h.append_right hafter
  refine Ends.bind (ends_plainStep _) (fun _ _ h => .failed h.2) ?_
  rintro plan more ⟨hplan, hmore⟩
  have hplan := mapError_eq_ok.mp hplan.symm
  have hwrite (uuid : Bytes) (huuid : uuid.length = 16) :
      ∃ image, plan.write placed.table placed.layout o.buildId uuid = .ok image := by
    obtain ⟨image, himage, -⟩ := exists_write_of_prepare hprepare hplan huuid
    exact ⟨image, himage⟩
  have himage (image : Array UInt8) (h : IsImage o placed plan image) :
      ∃ uuid, Link.image o placed uuid = .ok image := by
    obtain ⟨uuid, huuid⟩ := h
    exact ⟨uuid, bind_eq_ok.mpr ⟨plan, mapError_eq_ok.mpr hplan, mapError_eq_ok.mpr huuid⟩⟩
  have hfile : Ends (during (observerFor w.host o) .writeFile
      (writeFile w.host (observerFor w.host o) o placed plan))
      (Careful o fun image => ∃ uuid, Link.image o placed uuid = .ok image) := by
    refine Ends.during ?_ .writeFile fun _ _ _ h hafter => h.append_right hafter
    refine (ends_writeFile hwrite hcreate hfill).weaken ?_
    rintro r more ⟨rfl, hfills⟩
    exact (Careful.done hfills).imp himage
  split
  · -- a warning is told before the file is made
    rename_i warning _
    have hwarned : Untouched [.warn warning.message] := untouched_cons.mpr ⟨rfl, nofun⟩
    refine ends_ask_bind fun _ => hfile.weaken fun _ _ h => ?_
    exact (h.append_left hwarned).append_left hmore
  · exact hfile.weaken fun _ _ h => h.append_left hmore

/-- **Run.** A link fails before any file is changed, or makes the output file of some objects. -/
theorem ends_run (hcreate : ∀ log, w.create log o.output = .ok ())
    (hfill : ∀ log bytes, w.fill log o.output bytes = .ok ()) :
    Ends (ExceptT.mk (run w.host o)) (Careful o fun image => ∃ objects placed uuid,
      prepare o objects = .ok placed ∧ Link.image o placed uuid = .ok image) := by
  refine Ends.during ?_ .link fun _ _ _ h hafter => h.append_right hafter
  have hread : Ends (during (observerFor w.host o) .readInputs (readAll w.host o.inputs))
      fun _ more => Untouched more :=
    (ends_readAll o.inputs).during .readInputs fun _ _ _ h h' => untouched_append.mpr ⟨h, h'⟩
  refine hread.bind (fun _ _ h => .failed h) fun objects more hmore => ?_
  refine Ends.bind (ends_prepareWith objects)
    (fun _ _ h => .failed (untouched_append.mpr ⟨hmore, h.2⟩)) ?_
  rintro placed more' ⟨hprepare, hmore'⟩
  refine (ends_emit hcreate hfill hprepare.symm).weaken fun r more'' h => ?_
  refine ((h.imp fun image himage => ?_).append_left hmore').append_left hmore
  obtain ⟨uuid, huuid⟩ := himage
  exact ⟨objects, placed, uuid, hprepare.symm, huuid⟩

/-- **A link that fails changes no file.** Once a file is planned for a prepared link, it can be
written with any build id: there is room for each of its parts, and the sections of names are where
their headers say. So if the file system accepts the output file, a link that fails has not asked
for any file to be changed; and one that succeeds has given the output file the planned bytes. -/
theorem failed_run_untouched (w : Surroundings) (o : Options)
    (hcreate : ∀ log, w.create log o.output = .ok ())
    (hfill : ∀ log bytes, w.fill log o.output bytes = .ok ()) :
    (∀ objects placed plan, prepare o objects = .ok placed →
      Image.plan placed.table placed.layout o placed.relocations = .ok plan →
      plan.sections[plan.namesIndex]?.map (·.offset) = some plan.namesOffset ∧
      (∀ s ∈ plan.symbols,
        plan.sections[plan.namesIndex + 2]?.map (·.offset) = some s.namesOffset) ∧
      ∀ uuid : Bytes, uuid.length = 16 →
        ∃ image, plan.write placed.table placed.layout o.buildId uuid = .ok image ∧
          image.size = plan.fileSize) ∧
    (∀ e log, (run w.host o).run [] = (.error e, log) →
      ∀ request ∈ log, request.changes? = none) ∧
    (∀ log, (run w.host o).run [] = (.ok (), log) → ∃ objects placed uuid image,
      prepare o objects = .ok placed ∧ Link.image o placed uuid = .ok image ∧
      Request.fill o.output image ∈ log) := by
  obtain ⟨result, more, hrun, hcareful⟩ := ends_run hcreate hfill []
  refine ⟨fun objects placed plan hprepare hplan => ?_, fun e log h => ?_, fun log h => ?_⟩
  · obtain ⟨hnames, hstrings⟩ := names_of_plan hplan
    exact ⟨hnames, hstrings, fun uuid huuid => exists_write_of_prepare hprepare hplan huuid⟩
  · obtain ⟨rfl, rfl⟩ := Prod.mk.inj (hrun.symm.trans h)
    exact hcareful.untouched e rfl
  · obtain ⟨rfl, rfl⟩ := Prod.mk.inj (hrun.symm.trans h)
    obtain ⟨image, ⟨objects, placed, uuid, hprepare, himage⟩, hmem⟩ := hcareful.fills rfl
    exact ⟨objects, placed, uuid, image, hprepare, himage, hmem⟩

/-- Surroundings in which every file holds one text and may be changed. -/
def holding (text : String) : Surroundings where
  read _ _ := .ok (Bytes.ofString text)
  create _ _ := .ok ()
  fill _ _ _ := .ok ()
  uuid _ := ⟨Bytes.zeros 16, Bytes.length_zeros 16⟩

/-- A link of one file that starts at `main` and has a build id. -/
def mainOptions : Options where
  inputs := ["a.toml"]
  output := "out"
  outputKind := .static
  buildId := .uuid
  entry := .symbol "main"
  reportPhases := true

/-- A file in which `main` is no code. -/
def zeroedMain : String := "symbol = [[\"main\", \"bss\", false, false, 8, 64]]"

/-- A file in which `main` is code. -/
def codeMain : String := "symbol = [[\"main\", \"text\", false, false, 4, 4]]"

/-- That `main` is no code is found out when the file is planned, after all other phases. The file
is not made; if `main` is code, it can be. -/
theorem failed_run_untouched_sample :
    (∀ log, (holding zeroedMain).create log mainOptions.output = .ok ()) ∧
    (∀ log bytes, (holding zeroedMain).fill log mainOptions.output bytes = .ok ()) ∧
    (∃ e log, (run (holding zeroedMain).host mainOptions).run [] = (.error e, log) ∧
      Request.ended .applyRelocations ∈ log ∧ ∀ request ∈ log, request.changes? = none) ∧
    ∃ object placed plan image, readObject "a.toml" (.ok (Bytes.ofString codeMain)) = .ok object ∧
      prepare mainOptions [object] = .ok placed ∧
      Image.plan placed.table placed.layout mainOptions placed.relocations = .ok plan ∧
      plan.write placed.table placed.layout .uuid (Bytes.zeros 16) = .ok image ∧
      image.size = plan.fileSize := by
  have hcreate (log : List Request) :
      (holding zeroedMain).create log mainOptions.output = .ok () := rfl
  have hfill (log : List Request) (bytes : Array UInt8) :
      (holding zeroedMain).fill log mainOptions.output bytes = .ok () := rfl
  obtain ⟨hwrite, hfailed, -⟩ := failed_run_untouched _ _ hcreate hfill
  refine ⟨hcreate, hfill, ?_, ?_⟩
  · generalize hrun : (run (holding zeroedMain).host mainOptions).run [] = ended
    have hended : ended.1.isOk = false ∧ Request.ended .applyRelocations ∈ ended.2 := by
      subst hrun
      decide +kernel
    obtain ⟨result, log⟩ := ended
    cases result with
    | ok => exact nomatch hended.1
    | error e => exact ⟨e, log, rfl, hended.2, hfailed e log hrun⟩
  · obtain ⟨object, hread, placed, hprepare, plan, hplan⟩ :
        ∃ object, readObject "a.toml" (.ok (Bytes.ofString codeMain)) = .ok object ∧
          ∃ placed, prepare mainOptions [object] = .ok placed ∧ ∃ plan,
            Image.plan placed.table placed.layout mainOptions placed.relocations = .ok plan := by
      decide +kernel
    obtain ⟨image, himage⟩ := (hwrite _ placed plan hprepare hplan).2.2 _ (Bytes.length_zeros 16)
    exact ⟨object, placed, plan, image, hread, hprepare, hplan, himage⟩

end ArmLink.Link
