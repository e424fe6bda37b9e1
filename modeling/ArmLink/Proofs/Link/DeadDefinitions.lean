import ArmLink.Proofs.Bystander.Dynamic
import ArmLink.Proofs.Bystander.Image
import ArmLink.Proofs.Bystander.Merge
import ArmLink.Proofs.Link.Calls
import ArmLink.Proofs.Link.Output

/-!
# Dead definitions

A definition that nothing mentions is a bystander in every table of symbols. So a link does the same
with it and without it, step by step, and makes the same file.
-/

namespace ArmLink.Link

open SymbolTable DynamicTables

variable {α β γ δ : Type} {w : Surroundings} {o : Options} {b : Bystander} {front : List Object}
  {last : Object} {s : ObjectSymbol} {t : SymbolTable} {log : List Request} {p : Placed}

/-! ## Two links -/

theorem run_run_bind {x : Logged α} (f : α → Logged β) :
    (x >>= f).run.run log = (ExceptT.bindCont f (x.run.run log).1).run (x.run.run log).2 := rfl

theorem run_run_during {act : Logged α} {phase : Phase} :
    (during (observerFor w.host o) phase act).run.run log =
      ((act.run.run log).1,
        (act.run.run log).2 ++ if o.reportPhases then [.ended phase] else []) := by
  unfold observerFor
  split
  · rfl
  · exact congrArg (Prod.mk _) (List.append_nil _).symm

/-- Whatever was asked before, both steps make the same requests, and end alike. -/
def Paired (R : α → β → Prop) (x : Logged α) (y : Logged β) : Prop :=
  ∀ log, (y.run.run log).2 = (x.run.run log).2 ∧
    Alike (· = ·) R (x.run.run log).1 (y.run.run log).1

namespace Paired

variable {R : α → β → Prop} {S : γ → δ → Prop}

theorem plainStep {x : Except LinkError α} {y : Except LinkError β} (h : Alike (· = ·) R x y) :
    Paired R (Link.plainStep x) (Link.plainStep y) := fun _ => ⟨rfl, h⟩

variable {x : Logged α} {y : Logged β} {result : Except LinkError α}

theorem pure {a : α} {b : β} (h : R a b) : Paired R (pure a) (pure b) := plainStep (.ok h)

theorem refl (x : Logged α) : Paired (· = ·) x x := fun _ => ⟨rfl, .refl _⟩

theorem imp {Q : α → β → Prop} (h : Paired R x y) (hRQ : ∀ a b, R a b → Q a b) : Paired Q x y :=
  fun log => ⟨(h log).1, (h log).2.imp fun a b _ _ => hRQ a b⟩

theorem known (h : EndsWith x result) : Paired (fun a b => a = b ∧ result = .ok a) x x := by
  intro log
  refine ⟨rfl, (Alike.refl _).imp fun a b ha _ hab => ⟨hab, ?_⟩⟩
  obtain ⟨r, more, hrun, rfl, -⟩ := h log
  rw [hrun] at ha
  exact ha

theorem alike {result' : Except LinkError β} (h : Paired R x y) (hx : EndsWith x result)
    (hy : EndsWith y result') : Alike (· = ·) R result result' := by
  obtain ⟨-, halike⟩ := h []
  obtain ⟨_, _, hrun, rfl, -⟩ := hx []
  obtain ⟨_, _, hrun', rfl, -⟩ := hy []
  rwa [hrun, hrun'] at halike

theorem bind {f : α → Logged γ} {g : β → Logged δ}
    (h : Paired R x y) (hnext : ∀ a b, R a b → Paired S (f a) (g b)) :
    Paired S (x >>= f) (y >>= g) := by
  intro log
  obtain ⟨hlog, hresult⟩ := h log
  rw [run_run_bind, run_run_bind, hlog]
  generalize (x.run.run log).1 = result at hresult ⊢
  generalize (y.run.run log).1 = result' at hresult ⊢
  cases hresult with
  | error he => exact ⟨rfl, .error he⟩
  | ok hab => exact hnext _ _ hab _

theorem during (h : Paired R x y) (phase : Phase) :
    Paired R (Link.during (observerFor w.host o) phase x)
      (Link.during (observerFor w.host o) phase y) := by
  intro log
  obtain ⟨hlog, hresult⟩ := h log
  rw [run_run_during, run_run_during, hlog]
  exact ⟨rfl, hresult⟩

theorem step {ε σ σ' : Type} {x : Except (Failure ε σ) α} {y : Except (Failure ε σ') β}
    (h : Alike SameError R x y) (reason : ε → LinkError) (phase : Phase) : Paired R
      (Link.step (observerFor w.host o) phase fun _ => x.mapError fun e => reason e.error)
      (Link.step (observerFor w.host o) phase fun _ => y.mapError fun e => reason e.error) :=
  (plainStep (h.mapError fun _ _ he => congrArg reason he.symm)).during phase

theorem okStep {a : α} {b : β} (h : R a b) (phase : Phase) :
    Paired R (Link.step (observerFor w.host o) phase fun _ => .ok a)
      (Link.step (observerFor w.host o) phase fun _ => .ok b) :=
  (plainStep (.ok h)).during phase

end Paired

/-! ## Collecting -/

/-- No file and no option mentions the name, and the linker does not use it. -/
structure Unmentioned (o : Options) (objects : List Object) (name : String) : Prop where
  objects : ∀ file ∈ objects, name ∉ file.names
  entry : o.entry ≠ .symbol name
  settings : ∀ x ∈ o.stringVariables, x.1 ≠ name ∧ x.1 ++ ".str" ≠ name
  sentinels : name ∉ sentinels
  tables : name ∉ tableNames

/-- Once the files `front` were merged from index `index` on, and then the symbols of the file
`last`, the name leads to a symbol. -/
def Present (t : SymbolTable) (index : Nat) (front : List Object) (last : Object)
    (name : String) : Prop :=
  ∀ t₁ pending t₂, (mergeAll (m := Id) .silent front index t).run = .ok t₁ →
    mergeSymbols last.path (versionIn last (index + front.length)) t₁ last.symbols =
      .ok (pending, t₂) →
    (t₂.find? name (versionIn last (index + front.length) name)).isSome = true

/-- A table, and the same table with a bystander of the name. -/
def Watched (name : String) (t t' : SymbolTable) : Prop :=
  ∃ b : Bystander, b.symbol.name = name ∧ b.Beside t t'

/-- **Merge.** A definition that nothing mentions becomes a bystander. -/
theorem paired_mergeAll {index : Nat} {links : List PendingLink} (hcoherent : Coherent links t)
    (hnew : t.Avoids s.name) (hunnamed : ∀ file ∈ front ++ [last], s.name ∉ file.names)
    (hexported : s.exported = false) (houter : s.outer = none)
    (hpresent : ∀ r ∈ s.relocations, r.LeadsTo fun name =>
      name = s.name ∨ Present t index front last name) :
    Paired (Watched s.name) (mergeAll (observerFor w.host o) (front ++ [last]) index t)
      (mergeAll (observerFor w.host o) (front ++ [last.add s]) index t) := by
  induction front generalizing t index links with
  | nil =>
    have hlast : s.name ∉ last.names := hunnamed last (List.mem_singleton_self last)
    have hmerge : Alike SameError (Watched s.name) (t.merge last index)
        (t.merge (last.add s) index) := by
      refine Bystander.alike_merge hcoherent hnew hlast hexported houter ?_
      intro pending t₁ hsymbols r hr name hname
      exact (hpresent r hr name hname).imp_right fun h => h t pending t₁ rfl hsymbols
    exact (Paired.step hmerge .merge _).bind fun t t' h => .pure h
  | cons file front ih =>
    -- the first files are the same, so both links merge them into one table
    obtain ⟨hfile, hunnamed⟩ := List.forall_mem_cons.mp hunnamed
    refine (Paired.known (ends_step _ _)).bind ?_
    rintro t₁ _ ⟨rfl, hmerged⟩
    have hmerge := mapError_eq_ok.mp hmerged
    have hcoherent₁ := hcoherent.merge file index
    rw [hmerge] at hcoherent₁
    refine ih hcoherent₁ (hnew.merge hfile hmerge) hunnamed fun r hr name hname => ?_
    refine (hpresent r hr name hname).imp_right fun h t₂ pending t₃ hfront hsymbols => ?_
    have hall : (mergeAll (m := Id) .silent (file :: front) index t).run = .ok t₂ :=
      run_bind_eq_ok.mpr ⟨t₁, hmerged, hfront⟩
    have hindex : index + 1 + front.length = index + (file :: front).length := by
      rw [List.length_cons]
      omega
    rw [hindex] at hsymbols ⊢
    exact h t₂ pending t₃ hall hsymbols

/-- **Collect.** The same symbols are needed. -/
theorem paired_collectWith (hunmentioned : Unmentioned o (front ++ [last]) s.name)
    (hexported : s.exported = false) (houter : s.outer = none)
    (hpresent : ∀ r ∈ s.relocations, r.LeadsTo fun name =>
      name = s.name ∨ Present .initial 0 front last name) :
    Paired (Watched s.name) (collectWith (observerFor w.host o) o (front ++ [last]))
      (collectWith (observerFor w.host o) o (front ++ [last.add s])) := by
  refine (paired_mergeAll coherent_initial (avoids_initial hunmentioned.sentinels)
    hunmentioned.objects hexported houter hpresent).bind ?_
  rintro t t' ⟨b, hname, h⟩
  rw [← hname] at hunmentioned
  refine (Paired.plainStep (h.addVariables hunmentioned.settings)).bind ?_
  rintro ⟨settings, t⟩ ⟨_, t'⟩ ⟨rfl, h⟩
  refine .okStep ⟨b, hname, ?_⟩ _
  have hroots := h.roots hunmentioned.entry settings
  rw [hroots]
  exact h.markReachable _

/-! ## From symbols to addresses -/

theorem paired_makeDynamic {t' : SymbolTable} (h : b.Beside t t')
    (hname : b.symbol.name ∉ tableNames) :
    Paired (fun s s' => s' = b.carry? s ∧ b.Suits s.2) (makeDynamic (observerFor w.host o) o t)
      (makeDynamic (observerFor w.host o) o t') := by
  unfold makeDynamic
  split
  · have hsetup := h.setup fun name hmem heq => hname (heq ▸ hmem)
    refine (Paired.step hsetup .dynamic _).bind ?_
    rintro ⟨d, t⟩ _ ⟨rfl, ht⟩
    refine .pure ⟨?_, ht.keeps ((grows_exportSymbols d t).shell.map (·.outer))⟩
    have hexport := Bystander.exportSymbols_carry ht.le d
    exact congrArg (fun s : DynamicTables × SymbolTable => (some s.1, s.2)) hexport
  · exact .pure ⟨congrArg (Prod.mk none) h.eq, h.suits⟩

theorem paired_finishDynamic {s : Lowering} (h : b.Suits s.2) : Paired b.Follows
      (finishDynamic (observerFor w.host o) o s.1 s.2)
      (finishDynamic (observerFor w.host o) o (b.carry? s).1 (b.carry? s).2) := by
  obtain ⟨d?, t⟩ := s
  cases d? with
  | none => exact .pure ⟨rfl, h⟩
  | some d =>
    have hfinish : ∀ s s' : DynamicTables × SymbolTable, s' = b.carry s ∧ b.Suits s.2 →
        Paired b.Follows
          (step (observerFor w.host o) .finishDynamic fun _ => .ok (s.1.finish s.2 o.runPath?).2)
          (step (observerFor w.host o) .finishDynamic fun _ =>
            .ok (s'.1.finish s'.2 o.runPath?).2) := by
      rintro ⟨d, t⟩ _ ⟨rfl, ht⟩
      refine .okStep ⟨congrArg Prod.snd (b.finish_carry d t o.runPath?), ht.keeps ?_⟩ _
      exact (grows_finish d t o.runPath?).shell.map (·.outer)
    simp only [finishDynamic, Bystander.carry?, Option.map_some]
    split
    · have hsuits := h.keeps ((grows_addRelative d t).shell.map (·.outer))
      exact (Paired.okStep ⟨Bystander.addRelative_carry h d, hsuits⟩ _).bind hfinish
    · exact (Paired.pure ⟨rfl, h⟩).bind hfinish

/-- What is known of a placed link, with the bystander. -/
def carryPlaced (b : Bystander) (p : Placed) : Placed :=
  ⟨b.insert p.table, p.layout.rename b.shift, p.relocations.map (·.rename b.shift)⟩

theorem paired_place (h : b.Suits t) (hsentinels : b.symbol.name ∉ sentinels)
    (htables : b.symbol.name ∉ tableNames) :
    Paired (fun p p' => p' = carryPlaced b p ∧ b.Suits p.table)
      (place (observerFor w.host o) o t) (place (observerFor w.host o) o (b.insert t)) := by
  have hlayout := Bystander.alike_compute h hsentinels o.isRelocatable o.firstSectionIndex
  refine (Paired.step hlayout .layout _).bind ?_
  rintro ⟨l, t⟩ _ ⟨rfl, ht⟩
  have hgot : Elf.SectionName.got ≠ b.symbol.name := fun heq => htables (heq ▸ by decide)
  refine (Paired.step (Bystander.alike_apply ht hgot l o.isExternal) .resolve _).bind ?_
  rintro ⟨t, hosts⟩ _ ⟨rfl, ht⟩
  exact .pure ⟨rfl, ht⟩

/-- **Prepare.** The same symbols get the same addresses and bytes. -/
theorem paired_prepareWith (hunmentioned : Unmentioned o (front ++ [last]) s.name)
    (hexported : s.exported = false) (houter : s.outer = none)
    (hpresent : ∀ r ∈ s.relocations, r.LeadsTo fun name =>
      name = s.name ∨ Present .initial 0 front last name) :
    Paired (fun p p' => ∃ b : Bystander, b.symbol.name = s.name ∧ p' = carryPlaced b p ∧
        b.Suits p.table)
      (prepareWith (observerFor w.host o) o (front ++ [last]))
      (prepareWith (observerFor w.host o) o (front ++ [last.add s])) := by
  refine (paired_collectWith hunmentioned hexported houter hpresent).bind ?_
  rintro t t' ⟨b, hname, h⟩
  rw [← hname] at hunmentioned
  refine (paired_makeDynamic h hunmentioned.tables).bind ?_
  rintro ⟨d?, t⟩ _ ⟨rfl, ht⟩
  refine (Paired.step (Bystander.alike_lower ht o.isExternal d?) .lower _).bind ?_
  rintro s' _ ⟨rfl, hs'⟩
  refine (paired_finishDynamic hs').bind ?_
  rintro t _ ⟨rfl, ht⟩
  exact (paired_place ht hunmentioned.sentinels hunmentioned.tables).imp
    fun p p' hp => ⟨b, hname, hp⟩

/-! ## From addresses to bytes -/

theorem writeFile_carry {m : Type → Type} [Monad m] {host : Host m} {observer : Observer m}
    {plan : Image.Plan} : writeFile host observer o (carryPlaced b p) (plan.rename b.shift) =
      writeFile host observer o p plan := by
  have himage : fillImage host observer o (carryPlaced b p) (plan.rename b.shift) =
      fillImage host observer o p plan := by
    simp only [fillImage, carryPlaced, Bystander.putSymbols_insert, Image.complete_rename]
    rfl
  simp only [writeFile, fillFile, himage]

/-- **Emit.** The same file is made. -/
theorem paired_emit (h : b.Suits p.table) (hentry : o.entry ≠ .symbol b.symbol.name) :
    Paired (· = ·) (emit w.host o p) (emit w.host o (carryPlaced b p)) := by
  have hplan := Bystander.alike_plan (o := o) h
    (fun name hname heq => hentry (hname.trans (congrArg _ heq))) p.layout p.relocations
  refine Paired.during ?_ .writeOutput
  refine (Paired.plainStep (hplan.mapError fun e e' he => congrArg _ he)).bind ?_
  rintro plan _ rfl
  rw [writeFile_carry]
  exact .refl _

theorem alike_image (h : b.Suits p.table) (hentry : o.entry ≠ .symbol b.symbol.name)
    (uuid : Bytes) :
    Alike (· = ·) (· = ·) (Link.image o p uuid) (Link.image o (carryPlaced b p) uuid) := by
  have hplan := Bystander.alike_plan (o := o) h
    (fun name hname heq => hentry (hname.trans (congrArg _ heq))) p.layout p.relocations
  refine (hplan.mapError fun e e' he => congrArg _ he).bind ?_
  rintro plan _ rfl
  rw [carryPlaced, Bystander.write_insert]
  exact .refl _

/-! ## Whole links -/

/-- Reading files that are all there asks for each of them. -/
theorem ends_readAll_ok (paths : List String) :
    Ends (readAll w.host paths) fun r more => r.isOk = true → more = paths.map .read := by
  have hplain {α : Type} (x : Except LinkError α) :
      Ends (plainStep x) fun r more => r = x ∧ more = [] :=
    fun log => ⟨x, [], congrArg (Prod.mk x) (List.append_nil log).symm, rfl, rfl⟩
  induction paths with
  | nil => exact (hplain (.ok [])).weaken fun _ _ h _ => h.2
  | cons path paths ih =>
    refine ends_ask_bind fun log => ?_
    refine (hplain _).bind (fun e _ _ h => by cases h) ?_
    rintro object _ ⟨-, rfl⟩
    refine ih.bind (fun e _ _ h => by cases h) fun others more hmore => ?_
    refine (hplain (.ok (object :: others))).weaken ?_
    rintro _ _ ⟨rfl, rfl⟩ -
    rw [hmore rfl, List.append_nil, List.nil_append, List.map_cons]

/-- The bytes of the output file of some objects. A random build id is given. -/
def fileOf (o : Options) (objects : List Object) (uuid : Bytes) :
    Except LinkError (Array UInt8) := do
  Link.image o (← prepare o objects) uuid

def proceed (w : Surroundings) (o : Options) (objects : List Object) : Logged Unit := do
  emit w.host o (← prepareWith (observerFor w.host o) o objects)

/-- A link whose files can be read goes on with them. -/
theorem run_eq {objects : List Object}
    (h : ((readAll w.host o.inputs).run.run log).1 = .ok objects) : (run w.host o).run log =
      (during (observerFor w.host o) .link (proceed w o objects)).run.run
        (log ++ o.inputs.map .read ++ if o.reportPhases then [.ended .readInputs] else []) := by
  obtain ⟨result, more, hread, hmore⟩ := ends_readAll_ok (w := w) o.inputs log
  have hresult : result = .ok objects := by rwa [hread] at h
  subst hresult
  rw [hmore rfl] at hread
  have hrun : (run w.host o).run log = (during (observerFor w.host o) .link
      (during (observerFor w.host o) .readInputs (readAll w.host o.inputs) >>=
        proceed w o)).run.run log := rfl
  rw [hrun, run_run_during, run_run_bind, run_run_during, hread, run_run_during]
  rfl

/-- **Dead definitions.** Suppose that the last file of a link gets one more definition behind the
others. Shared libraries do not see it, it lies within no other symbol, nothing mentions its name,
and it refers to nothing but symbols that are there already. Then the output file has the same
bytes, or there is none for the same reason. And whatever the surroundings are, a link that reads
the changed file ends as it would have ended, and makes the same requests; among them is the one
that gives the output file its bytes. -/
theorem dead_definition_ignored (o : Options) (front : List Object) (last : Object)
    (s : ObjectSymbol) (hexported : s.exported = false) (houter : s.outer = none)
    (hunmentioned : Unmentioned o (front ++ [last]) s.name)
    (hpresent : ∀ r ∈ s.relocations, r.LeadsTo fun name =>
      name = s.name ∨ Present .initial 0 front last name) :
    (∀ uuid, fileOf o (front ++ [last.add s]) uuid = fileOf o (front ++ [last]) uuid) ∧
    ∀ (w : Surroundings) (changed : List Request → String → Except FileFault Bytes)
      (log : List Request),
      ((readAll w.host o.inputs).run.run log).1 = .ok (front ++ [last]) →
      ((readAll { w with read := changed }.host o.inputs).run.run log).1 =
        .ok (front ++ [last.add s]) →
      (run { w with read := changed }.host o).run log = (run w.host o).run log := by
  have hprepare (w : Surroundings) :=
    paired_prepareWith (w := w) hunmentioned hexported houter hpresent
  refine ⟨fun uuid => ?_, fun w changed log hread hchanged => ?_⟩
  · have hprepared := (hprepare (holding "")).alike (ends_prepareWith _) (ends_prepareWith _)
    refine (Alike.eq (hprepared.bind ?_)).symm
    rintro p _ ⟨b, hname, rfl, hp⟩
    exact alike_image hp (hname ▸ hunmentioned.entry) uuid
  · have hproceed : Paired (· = ·) (proceed w o (front ++ [last]))
        (proceed w o (front ++ [last.add s])) := by
      refine (hprepare w).bind ?_
      rintro p _ ⟨b, hname, rfl, hp⟩
      exact paired_emit hp (hname ▸ hunmentioned.entry)
    rw [run_eq hread, run_eq hchanged]
    obtain ⟨hlog, hresult⟩ := hproceed.during (w := w) (o := o) .link
      (log ++ o.inputs.map .read ++ if o.reportPhases then [.ended .readInputs] else [])
    exact (Prod.ext hresult.eq hlog.symm).symm

/-- A file with code that refers to a table. -/
def codeFile : Object :=
  ⟨"a.toml", [programCode [0, 0, 0, 0] [.pending 0 4 .absolute (some "table") 0]], []⟩

/-- A file with the table. -/
def tableFile : Object := ⟨"b.toml", [programTable "table" 4 [1, 2, 3, 4] []], []⟩

/-- A definition that refers to the code and to itself, and that nothing else mentions. -/
def unusedTable : ObjectSymbol :=
  programTable "unused" 8 [5, 6, 7, 8]
    [.pending 0 4 .absolute (some "main") 0, .pending 4 4 .absolute (some "unused") 0]

/-- A link to an output that may be loaded anywhere. -/
def movableOptions : Options := { mainOptions with outputKind := .relocatable, buildId := .none }

/-- Zeroed code as it is read from a file. -/
def zeroedCode : ObjectSymbol := { programCode [] [] with size := 4, alignment := some .word }

/-- A file in which something zeroed follows the code. -/
def codeMainAndSpare : String :=
  "symbol = [[\"main\", \"text\", false, false, 4, 4], [\"spare\", \"rodata\", false, false, 4, 8]]"

/-- The code in the first file is there before the definition in the second one is merged. And a
file that gets a definition without references can be linked as before. -/
theorem dead_definition_ignored_sample :
    (∃ image, fileOf movableOptions [codeFile, tableFile] (Bytes.zeros 16) = .ok image ∧
      fileOf movableOptions [codeFile, tableFile.add unusedTable] (Bytes.zeros 16) = .ok image) ∧
    (run (holding codeMainAndSpare).host movableOptions).run [] =
      (run (holding codeMain).host movableOptions).run [] := by
  constructor
  · obtain ⟨t₁, hfront, pending, t₂, hsymbols, hmain⟩ :
        ∃ t₁, (mergeAll (m := Id) .silent [codeFile] 0 .initial).run = Except.ok t₁ ∧
          ∃ pending t₂, mergeSymbols tableFile.path (versionIn tableFile 1) t₁ tableFile.symbols =
            .ok (pending, t₂) ∧ (t₂.find? "main" (versionIn tableFile 1 "main")).isSome := by
      decide +kernel
    obtain ⟨placed, hprepare, plan, hplan⟩ :
        ∃ placed, prepare movableOptions [codeFile, tableFile] = .ok placed ∧ ∃ plan,
          Image.plan placed.table placed.layout movableOptions placed.relocations = .ok plan := by
      decide +kernel
    obtain ⟨image, hwrite, -⟩ := exists_write_of_prepare hprepare hplan (Bytes.length_zeros 16)
    have hfile : fileOf movableOptions [codeFile, tableFile] (Bytes.zeros 16) = .ok image :=
      bind_eq_ok.mpr ⟨placed, hprepare,
        bind_eq_ok.mpr ⟨plan, mapError_eq_ok.mpr hplan, mapError_eq_ok.mpr hwrite⟩⟩
    have hsame := (dead_definition_ignored movableOptions [codeFile] tableFile unusedTable rfl rfl
      ⟨by decide +kernel, by decide, List.forall_mem_nil _, by decide +kernel, by decide +kernel⟩
      ?_).1 (Bytes.zeros 16)
    · exact ⟨image, hfile, hsame.trans hfile⟩
    · refine List.forall_mem_cons.mpr ⟨?_, List.forall_mem_singleton.mpr ?_⟩
      · rintro name ⟨⟩
        refine .inr fun t₁' pending' t₂' hfront' hsymbols' => ?_
        cases hfront.symm.trans hfront'
        cases hsymbols.symm.trans hsymbols'
        exact hmain
      · rintro name ⟨⟩
        exact .inl rfl
  · refine (dead_definition_ignored movableOptions [] ⟨"a.toml", [zeroedCode], []⟩
      { programTable "spare" 8 [] [] with alignment := some .word } rfl rfl
      ⟨by decide +kernel, by decide, List.forall_mem_nil _, by decide +kernel, by decide +kernel⟩
      (List.forall_mem_nil _)).2 (holding codeMain) (holding codeMainAndSpare).read [] ?_ ?_
    · decide +kernel
    · decide +kernel

end ArmLink.Link
