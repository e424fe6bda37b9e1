import ArmLink.Proofs.Object.Readable
import ArmLink.Proofs.SymbolTable.Merge

/-!
# Definitions of merged files

Several files may define a symbol, as long as they say the same of it. What files that were merged
say is compared with what the table holds in the end.
-/

namespace ArmLink

open SymbolTable List

variable {s : Symbol} {o : ObjectSymbol} {relocations : List (Relocation SymbolId)}
  {files : List (Object × Nat)} {kept : Definition} {path : String} {version : String → Nat}

/-- What a symbol consists of. -/
structure Contents (τ : Type) where
  kind : SymbolKind
  size : Nat
  data : Bytes
  value : Option Nat
  relocations : List (Relocation τ)
  deriving DecidableEq, Repr

def Contents.map {τ υ : Type} (f : τ → υ) (c : Contents τ) : Contents υ :=
  ⟨c.kind, c.size, c.data, c.value, c.relocations.map (·.map f)⟩

def Symbol.contents (s : Symbol) : Contents SymbolId :=
  ⟨s.kind, s.size, s.data, s.value, s.relocations⟩

/-- A symbol that a file lists, with the versions that the file gives to names. -/
structure Definition where
  symbol : ObjectSymbol
  version : String → Nat

namespace Definition

def key (d : Definition) : String × Nat := (d.symbol.name, d.version d.symbol.name)

/-- The symbol that is defined. -/
def find? (d : Definition) (t : SymbolTable) : Option SymbolId :=
  t.find? d.symbol.name (d.version d.symbol.name)

/-- The contents that are given, with the symbols that their targets name. -/
def contents (d : Definition) (t : SymbolTable) : Contents (Option SymbolId) :=
  Contents.map (fun name => t.find? name (d.version name))
    ⟨d.symbol.kind, d.symbol.size, d.symbol.data, d.symbol.value, d.symbol.relocations⟩

/-- Whether the file says what the symbol is: those of the host linker it only announces. -/
def isProper (d : Definition) : Bool := d.symbol.kind ≠ .hostObject

end Definition

namespace SymbolTable

variable {t t' t'' : SymbolTable} {id : SymbolId} {defs : List Definition} {d : Definition}

/-- The definitions of some files, each with its index. -/
def definitions (files : List (Object × Nat)) : List Definition :=
  files.flatMap fun f => f.1.symbols.map fun s => ⟨s, versionIn f.1 f.2⟩

def mergeFiles (t : SymbolTable) (files : List (Object × Nat)) :
    Except (Failure MergeError SymbolTable) SymbolTable :=
  files.foldlM (fun t f => t.merge f.1 f.2) t

theorem repeats_iff : repeats s o relocations = true ↔
      s.contents = ⟨o.kind, o.size, o.data, o.value, relocations⟩ := by
  simp [repeats, Symbol.contents, and_assoc]

/-! ## What stays -/

/-- From `t` to `t'`, names stay and what objects say of symbols stays. -/
structure Settles (t t' : SymbolTable) : Prop where
  finds : Finds t t'
  contents : ∀ id, (t.get id).isSettled → (t'.get id).contents = (t.get id).contents
  alignment : ∀ id, (t.get id).isSettled → (t'.get id).alignment = (t.get id).alignment
  exported : ∀ id, (t.get id).isSettled → (t'.get id).exported = (t.get id).exported

theorem Settles.refl (t : SymbolTable) : Settles t t :=
  ⟨fun _ _ _ h => h, fun _ _ => rfl, fun _ _ => rfl, fun _ _ => rfl⟩

theorem Settles.isSettled (h : Settles t t') (hsettled : (t.get id).isSettled) :
    (t'.get id).isSettled := by
  have hkind : (t'.get id).kind = (t.get id).kind := congrArg Contents.kind (h.contents id hsettled)
  rw [Symbol.isSettled, hkind]
  exact hsettled

theorem Settles.trans (h : Settles t t') (h' : Settles t' t'') : Settles t t'' :=
  ⟨fun name version id hfind => h'.finds name version id (h.finds name version id hfind),
    fun id hs => (h'.contents id (h.isSettled hs)).trans (h.contents id hs),
    fun id hs => (h'.alignment id (h.isSettled hs)).trans (h.alignment id hs),
    fun id hs => (h'.exported id (h.isSettled hs)).trans (h.exported id hs)⟩

theorem Quiet.contents (h : Quiet t t') (id : SymbolId) :
    (t'.get id).contents = { (t.get id).contents with kind := (t'.get id).kind } := by
  have hrest := h.read (p := fun s => { s.contents with kind := .undefined }) (fun _ => rfl) id
  exact congrArg (fun c : Contents SymbolId => { c with kind := (t'.get id).kind }) hrest

theorem Quiet.settles (h : Quiet t t') : Settles t t' := by
  refine ⟨h.finds, fun id hs => ?_, fun id _ => h.read (fun _ => rfl) id,
    fun id _ => h.read (fun _ => rfl) id⟩
  rw [h.contents, h.kind_of_isSettled hs]
  rfl

/-- A definition is taken by a symbol that nobody has said anything of. -/
theorem not_isSettled (h : (s.isDefined && !s.isImport) = false) : ¬ s.isSettled := by
  rintro ⟨hdefined, himport, -⟩
  simp [Symbol.isDefined, Symbol.isImport, hdefined, himport] at h

theorem finds_define (t : SymbolTable) (id : SymbolId) (o : ObjectSymbol)
    (relocations : List (Relocation SymbolId)) (name : String) (version : Nat) :
    (t.modify id (define o relocations)).find? name version = t.find? name version :=
  Keeps.find? (.modify rfl) name version

theorem settles_define (h : ¬ (t.get id).isSettled) :
    Settles t (t.modify id (define o relocations)) := by
  have hother j (hs : (t.get j).isSettled) :
      (t.modify id (define o relocations)).get j = t.get j :=
    get_modify_ne fun hj => h (hj ▸ hs)
  exact ⟨fun name version j hfind => (finds_define t id o relocations name version).trans hfind,
    fun j hs => congrArg _ (hother j hs), fun j hs => congrArg _ (hother j hs),
    fun j hs => congrArg _ (hother j hs)⟩

/-- What objects have said of symbols stays when another one is merged. -/
theorem merging_settles (t : SymbolTable) : Merging (Settles t) where
  lookup t₁ name version h := h.trans (Quiet.lookup t₁ name version).settles
  define _ _ _ _ h _ hdefined := h.trans (settles_define (not_isSettled hdefined))
  contain _ _ _ _ _ h hcontain := h.trans (Quiet.contain hcontain).settles
  mergeImport t₁ i h := h.trans (Quiet.mergeImport t₁ i).settles

theorem settles_mergeFiles (h : t.mergeFiles files = .ok t') : Settles t t' :=
  foldlM_ok_induction h (.refl t) fun _ _ _ _ hs hmerge => (merging_settles t).merge hs hmerge

/-! ## Symbols of the linker -/

/-- Nothing is known of a symbol of the linker, other than that a library may provide it. -/
structure Unclaimed (t : SymbolTable) : Prop where
  sentinels : t.HasSentinels
  kind : ∀ id, (t.get id).special = true →
    (t.get id).kind = .undefined ∨ (t.get id).kind = .dynamicImport
  contents : ∀ id, (t.get id).special = true →
    (t.get id).contents = ⟨(t.get id).kind, 0, [], none, []⟩

theorem Quiet.unclaimed (h : Quiet t t') (ht : t.Unclaimed) : t'.Unclaimed := by
  have hspecial id : (t'.get id).special = (t.get id).special := h.read (fun _ => rfl) id
  refine ⟨fun name hname => ?_, fun id hs => ?_, fun id hs => ?_⟩
  · obtain ⟨id, hfind, hs⟩ := ht.sentinels name hname
    exact ⟨id, h.finds name 0 id hfind, (hspecial id).trans hs⟩
  · rcases h.kind id with hkind | ⟨himport, -⟩
    · rw [hkind]
      exact ht.kind id ((hspecial id).symm.trans hs)
    · exact .inr himport
  · rw [h.contents, ht.contents id ((hspecial id).symm.trans hs)]

theorem unclaimed_define (ht : t.Unclaimed) (hspecial : (t.get id).special = false) :
    (t.modify id (define o relocations)).Unclaimed := by
  have hother j (hs : ((t.modify id (define o relocations)).get j).special = true) :
      (t.modify id (define o relocations)).get j = t.get j := by
    refine get_modify_ne fun hj => ?_
    subst hj
    have hsame : ((t.modify j (define o relocations)).get j).special = (t.get j).special :=
      (Keeps.modify (p := Symbol.special) rfl).2 j
    rw [hsame, hspecial] at hs
    cases hs
  refine ⟨ht.sentinels.keeps (.modify rfl), fun j hs => ?_, fun j hs => ?_⟩
  · have hj := hother j hs
    rw [hj] at hs ⊢
    exact ht.kind j hs
  · have hj := hother j hs
    rw [hj] at hs ⊢
    exact ht.contents j hs

theorem unclaimed_initial : initial.Unclaimed where
  sentinels := hasSentinels_initial
  kind := forall_get
    (P := fun s => s.special = true → s.kind = .undefined ∨ s.kind = .dynamicImport)
    (by decide) (by decide)
  contents := forall_get (P := fun s => s.special = true → s.contents = ⟨s.kind, 0, [], none, []⟩)
    (by decide) (by decide)

theorem merging_unclaimed : Merging Unclaimed where
  lookup t name version h := (Quiet.lookup t name version).unclaimed h
  define _ _ _ _ h hspecial _ := unclaimed_define h hspecial
  contain _ _ _ _ _ h hcontain := (Quiet.contain hcontain).unclaimed h
  mergeImport t i h := (Quiet.mergeImport t i).unclaimed h

/-! ## What the table holds -/

/-- What is asked for a symbol besides its contents is what `kept` asks for, one of its definitions:
the first of those that say what it is, if any does. -/
structure Governs (defs : List Definition) (s : Symbol) (kept : Definition) : Prop where
  mem : kept ∈ defs
  key : kept.key = s.key
  exported : s.exported = kept.symbol.exported
  alignment : s.alignment = kept.symbol.alignment
  first : s.isSettled → defs.find? (fun d => d.key = s.key && d.isProper) = some kept

/-- The table holds what the definitions say, and nothing else. -/
structure Recorded (defs : List Definition) (t : SymbolTable) : Prop where
  origin : ∀ id, (t.get id).kind ≠ .undefined → (t.get id).kind ≠ .dynamicImport →
    ∃ kept, Governs defs (t.get id) kept
  held : ∀ d ∈ defs, ∃ id, d.find? t = some id ∧ (t.get id).special = false ∧
    (∃ kept, Governs defs (t.get id) kept) ∧
    (d.isProper = true → (t.get id).isSettled ∧ d.contents t = (t.get id).contents.map some)

theorem Governs.append (h : Governs defs s kept) (more : List Definition) :
    Governs (defs ++ more) s kept := by
  refine ⟨mem_append_left more h.mem, h.key, h.exported, h.alignment, fun hs => ?_⟩
  rw [find?_append, h.first hs]
  rfl

/-- Whoever asks for a symbol still does if the symbol keeps its name and what is asked for it. -/
theorem Governs.congr {s' : Symbol} (h : Governs defs s kept) (hkey : s'.key = s.key)
    (hexported : s'.exported = s.exported) (halignment : s'.alignment = s.alignment)
    (hsettled : s'.isSettled → s.isSettled) : Governs defs s' kept := by
  refine ⟨h.mem, h.key.trans hkey.symm, hexported.trans h.exported,
    halignment.trans h.alignment, fun hs => ?_⟩
  rw [hkey]
  exact h.first (hsettled hs)

theorem contents_of_finds {c : Contents SymbolId} (h : Finds t t')
    (hc : d.contents t = c.map some) : d.contents t' = c.map some := by
  simp only [Definition.contents, Contents.map, Contents.mk.injEq] at hc ⊢
  obtain ⟨hkind, hsize, hdata, hvalue, hrelocations⟩ := hc
  exact ⟨hkind, hsize, hdata, hvalue,
    Relocation.map_eq_of_finds (fun name id hfind => h name _ id hfind) hrelocations⟩

theorem key_of_find? (h : d.find? t = some id) : id < t.size ∧ d.key = (t.get id).key := by
  obtain ⟨hlt, hname, hversion⟩ := find?_eq_some h
  refine ⟨hlt, ?_⟩
  rw [Definition.key, Symbol.key, hname, hversion]

theorem Quiet.recorded (h : Quiet t t') (ht : Recorded defs t) : Recorded defs t' := by
  have hgoverns {id kept} (hlt : id < t.size) (hg : Governs defs (t.get id) kept) :
      Governs defs (t'.get id) kept := by
    refine hg.congr (h.key id hlt) (h.read (fun _ => rfl) id) (h.read (fun _ => rfl) id) ?_
    intro hs
    rw [Symbol.isSettled, ← h.kind_of_ne hs.2.1]
    exact hs
  refine ⟨fun id hdefined himport => ?_, fun d hd => ?_⟩
  · rw [h.kind_of_ne himport] at hdefined himport
    obtain ⟨kept, hkept⟩ := ht.origin id hdefined himport
    refine ⟨kept, hgoverns (Nat.lt_of_not_le fun hle => hdefined ?_) hkept⟩
    rw [get_of_size_le hle]
    rfl
  · obtain ⟨id, hfind, hspecial, ⟨kept, hkept⟩, hproper⟩ := ht.held d hd
    refine ⟨id, h.finds _ _ _ hfind, (h.read (fun _ => rfl) id).trans hspecial,
      ⟨kept, hgoverns (key_of_find? hfind).1 hkept⟩, fun hd => ?_⟩
    obtain ⟨hsettled, hcontents⟩ := hproper hd
    refine ⟨h.settles.isSettled hsettled, ?_⟩
    rw [h.settles.contents id hsettled]
    exact contents_of_finds h.finds hcontents

variable (h : Recorded defs t)
include h

/-- A definition that says again what the table says is recorded already. -/
theorem Recorded.repeated (hkind : d.symbol.kind ≠ .dynamicImport) (hfind : d.find? t = some id)
    (hspecial : (t.get id).special = false)
    (hcontents : d.contents t = (t.get id).contents.map some) : Recorded (defs ++ [d]) t := by
  have hsame : d.symbol.kind = (t.get id).kind := congrArg Contents.kind hcontents
  have hdefined := d.symbol.kind_ne_undefined
  refine ⟨fun j hdefined himport => ?_, fun e he => ?_⟩
  · obtain ⟨kept, hkept⟩ := h.origin j hdefined himport
    exact ⟨kept, hkept.append [d]⟩
  · rcases mem_append.mp he with he | he
    · obtain ⟨j, hfind, hspecial, ⟨kept, hkept⟩, hproper⟩ := h.held e he
      exact ⟨j, hfind, hspecial, ⟨kept, hkept.append [d]⟩, hproper⟩
    · cases mem_singleton.mp he
      rw [hsame] at hdefined hkind
      obtain ⟨kept, hkept⟩ := h.origin id hdefined hkind
      refine ⟨id, hfind, hspecial, ⟨kept, hkept.append [d]⟩, fun hproper => ?_⟩
      refine ⟨⟨hdefined, hkind, ?_⟩, hcontents⟩
      rw [← hsame]
      exact of_decide_eq_true hproper

theorem Recorded.define (hkind : d.symbol.kind ≠ .dynamicImport) (hfind : d.find? t = some id)
    (hspecial : (t.get id).special = false) (hfree : ¬ (t.get id).isSettled)
    (hrelocations : d.symbol.relocations.map (·.map fun name => t.find? name (d.version name)) =
      relocations.map (·.map some)) :
    Recorded (defs ++ [d]) (t.modify id (SymbolTable.define d.symbol relocations)) := by
  obtain ⟨hlt, hkey⟩ := key_of_find? hfind
  generalize ht' : t.modify id (SymbolTable.define d.symbol relocations) = t'
  have hfinds : Finds t t' := by
    rw [← ht']
    exact (settles_define hfree).finds
  have hself : t'.get id = SymbolTable.define d.symbol relocations (t.get id) := by
    rw [← ht', get_modify_self hlt]
  have hother j (hj : j ≠ id) : t'.get j = t.get j := by
    rw [← ht', get_modify_ne hj]
  -- a definition of this symbol that came before and said what it is would have settled it
  have hfirst : defs.find? (fun e => e.key = d.key && e.isProper) = none := by
    refine List.find?_eq_none.mpr fun e he hsame => ?_
    simp only [Bool.and_eq_true, decide_eq_true_eq] at hsame
    obtain ⟨j, hfind', -, -, hproper⟩ := h.held e he
    have hj : j = id := by
      have hkeys : e.find? t = d.find? t :=
        congrArg (fun k : String × Nat => t.find? k.1 k.2) hsame.1
      rw [hkeys, hfind] at hfind'
      exact (Option.some.inj hfind').symm
    exact hfree (hj ▸ (hproper hsame.2).1)
  have hgoverns : Governs (defs ++ [d]) (t'.get id) d := by
    rw [hself]
    refine ⟨mem_append_right defs mem_cons_self, hkey, rfl, rfl, fun hs => ?_⟩
    have hproper : d.isProper = true := decide_eq_true hs.2.2
    show (defs ++ [d]).find? (fun e => e.key = (t.get id).key && e.isProper) = some d
    rw [← hkey, find?_append, hfirst]
    simp [hproper]
  refine ⟨fun j hdefined himport => ?_, fun e he => ?_⟩
  · by_cases hj : j = id
    · exact ⟨d, hj ▸ hgoverns⟩
    · rw [hother j hj] at hdefined himport ⊢
      obtain ⟨kept, hkept⟩ := h.origin j hdefined himport
      exact ⟨kept, hkept.append [d]⟩
  · rcases mem_append.mp he with he | he
    · obtain ⟨j, hfind', hspecial', ⟨kept, hkept⟩, hproper⟩ := h.held e he
      by_cases hj : j = id
      · subst hj
        refine ⟨j, hfinds _ _ _ hfind', ?_, ⟨d, hgoverns⟩, fun he => ?_⟩
        · rw [hself]
          exact hspecial
        · exact absurd (hproper he).1 hfree
      · refine ⟨j, hfinds _ _ _ hfind', ?_, ⟨kept, ?_⟩, fun he => ?_⟩
        · rw [hother j hj]
          exact hspecial'
        · rw [hother j hj]
          exact hkept.append [d]
        · rw [hother j hj]
          exact ⟨(hproper he).1, contents_of_finds hfinds (hproper he).2⟩
    · cases mem_singleton.mp he
      refine ⟨id, hfinds _ _ _ hfind, ?_, ⟨d, hgoverns⟩, fun hproper => ?_⟩
      · rw [hself]
        exact hspecial
      · rw [hself]
        refine ⟨⟨d.symbol.kind_ne_undefined, hkind, of_decide_eq_true hproper⟩, ?_⟩
        have hcontents : d.contents t =
            (SymbolTable.define d.symbol relocations (t.get id)).contents.map some :=
          congrArg (Contents.mk d.symbol.kind d.symbol.size d.symbol.data d.symbol.value)
            hrelocations
        exact contents_of_finds hfinds hcontents

/-! ## Runs -/

/-- **One definition.** A definition that is accepted is recorded. -/
theorem Recorded.mergeSymbol {link : Option PendingLink} (hkind : o.kind ≠ .dynamicImport)
    (hmerge : SymbolTable.mergeSymbol path version t o = .ok (link, t')) :
    Recorded (defs ++ [⟨o, version⟩]) t' := by
  obtain ⟨id, -, relocations, t₁, -, hlooked, hfind, hrelocations, hspecial, hcases⟩ :=
    mergeSymbol_ok hmerge
  have h₁ : Recorded defs t₁ := hlooked ▸ (Quiet.lookups ..).recorded h
  rcases hcases with ⟨-, hrepeats, -, rfl⟩ | ⟨hdefined, hcases⟩
  · refine h₁.repeated (d := ⟨o, version⟩) hkind hfind hspecial ?_
    rw [repeats_iff.mp hrepeats]
    exact congrArg (Contents.mk o.kind o.size o.data o.value) hrelocations
  · have hrecorded := h₁.define (d := ⟨o, version⟩) hkind hfind hspecial (not_isSettled hdefined)
      hrelocations
    rcases hcases with ⟨-, -, rfl⟩ | ⟨name, offset, outer, -, -, rfl, -⟩
    · exact hrecorded
    · exact (Quiet.lookups ..).recorded hrecorded

theorem Recorded.mergeSymbols {os : List ObjectSymbol} {links : List PendingLink}
    (hkind : ∀ o ∈ os, o.kind ≠ .dynamicImport)
    (hmerge : SymbolTable.mergeSymbols path version t os = .ok (links, t')) :
    Recorded (defs ++ os.map (⟨·, version⟩)) t' := by
  refine mergeSymbols_induction (Q := fun os _ => Recorded (defs ++ os.map (⟨·, version⟩))) ?_
    (fun done _ t link t' o ho h hmerge => ?_) hmerge
  · rwa [map_nil, append_nil]
  · rw [map_append, ← append_assoc]
    exact h.mergeSymbol (hkind o ho) hmerge

/-- **One file.** All definitions of a file that was merged are recorded. -/
theorem Recorded.merge {ob : Object} {index : Nat}
    (hkind : ∀ o ∈ ob.symbols, o.kind ≠ .dynamicImport) (hmerge : t.merge ob index = .ok t') :
    Recorded (defs ++ ob.symbols.map (⟨·, versionIn ob index⟩)) t' := by
  obtain ⟨links, t₁, t₂, hsymbols, hlinks, rfl⟩ := merge_ok hmerge
  have h₂ := foldlM_ok_induction hlinks (h.mergeSymbols hkind hsymbols)
    fun _ _ _ _ ht hlink => (Quiet.contain (mapError_eq_ok.mp hlink)).recorded ht
  exact foldl_induction h₂ fun t i _ ht => (Quiet.mergeImport t i).recorded ht

omit h

theorem mergeFiles_induction {P : List Definition → SymbolTable → Prop} (h : P defs t)
    (hmerge : t.mergeFiles files = .ok t')
    (step : ∀ f ∈ files, ∀ defs t t', P defs t → t.merge f.1 f.2 = .ok t' →
      P (defs ++ f.1.symbols.map (⟨·, versionIn f.1 f.2⟩)) t') :
    P (defs ++ definitions files) t' := by
  induction files generalizing defs t with
  | nil =>
    obtain rfl := pure_eq_ok.mp hmerge
    rw [definitions, flatMap_nil, append_nil]
    exact h
  | cons f files ih =>
    obtain ⟨t₁, hfirst, hrest⟩ := bind_eq_ok.mp hmerge
    obtain ⟨hf, hfiles⟩ := forall_mem_cons.mp step
    rw [definitions, flatMap_cons, ← append_assoc]
    exact ih (hf _ _ _ h hfirst) hrest hfiles

/-- **All files.** -/
theorem Recorded.mergeFiles (h : Recorded defs t)
    (hkind : ∀ f ∈ files, ∀ o ∈ f.1.symbols, o.kind ≠ .dynamicImport)
    (hmerge : t.mergeFiles files = .ok t') : Recorded (defs ++ definitions files) t' :=
  mergeFiles_induction h hmerge fun f hf _ _ _ h hmerge => h.merge (hkind f hf) hmerge

theorem recorded_of_kind (hkind : ∀ f ∈ files, ∀ s ∈ f.1.symbols, s.kind ≠ .dynamicImport)
    (hmerge : initial.mergeFiles files = .ok t) : Recorded (definitions files) t := by
  have hinitial : Recorded [] initial := by
    refine ⟨fun id hdefined _ => absurd ?_ hdefined, fun d hd => absurd hd not_mem_nil⟩
    exact forall_get (P := fun s => s.kind = .undefined) (by decide) rfl id
  exact hinitial.mergeFiles hkind hmerge

theorem recorded_of_read (hread : ∀ f ∈ files, ∃ text, Object.ofText f.1.path text = .ok f.1)
    (hmerge : initial.mergeFiles files = .ok t) : Recorded (definitions files) t := by
  refine recorded_of_kind (fun f hf => ?_) hmerge
  obtain ⟨text, htext⟩ := hread f hf
  exact Object.kind_of_ofText htext

/-- **Definitions agree.** When files that were read are merged, all definitions of a symbol that
say what it is give it the same contents, which are what the table holds, and no file that is merged
later changes them. No symbol of the linker gets a definition. -/
theorem definitions_agree {files : List (Object × Nat)} {t : SymbolTable}
    (hread : ∀ f ∈ files, ∃ text, Object.ofText f.1.path text = .ok f.1)
    (hmerge : initial.mergeFiles files = .ok t) :
    (∀ d ∈ definitions files, d.isProper = true → ∃ id, d.find? t = some id ∧
      d.contents t = (t.get id).contents.map some ∧
      (∀ e ∈ definitions files, e.isProper = true → e.key = d.key → e.contents t = d.contents t) ∧
      ∀ more t', t.mergeFiles more = .ok t' → d.find? t' = some id ∧
        (t'.get id).contents = (t.get id).contents ∧
        (t'.get id).alignment = (t.get id).alignment ∧
        (t'.get id).exported = (t.get id).exported) ∧
    (∀ d ∈ definitions files, ∀ id, d.find? t = some id → (t.get id).special = false) ∧
    t.Unclaimed := by
  have hrecorded := recorded_of_read hread hmerge
  refine ⟨fun d hd hproper => ?_, fun d hd id hfind => ?_, ?_⟩
  · obtain ⟨id, hfind, -, -, hheld⟩ := hrecorded.held d hd
    obtain ⟨hsettled, hcontents⟩ := hheld hproper
    refine ⟨id, hfind, hcontents, fun e he hproper' hkey => ?_, fun more t' hmore => ?_⟩
    · obtain ⟨id', hfind', -, -, hheld'⟩ := hrecorded.held e he
      have hsame : e.find? t = d.find? t :=
        congrArg (fun k : String × Nat => t.find? k.1 k.2) hkey
      rw [hsame, hfind] at hfind'
      cases hfind'
      rw [(hheld' hproper').2, hcontents]
    · have hsettles := settles_mergeFiles hmore
      exact ⟨hsettles.finds _ _ _ hfind, hsettles.contents id hsettled,
        hsettles.alignment id hsettled, hsettles.exported id hsettled⟩
  · obtain ⟨id', hfind', hspecial, -⟩ := hrecorded.held d hd
    rw [hfind] at hfind'
    cases hfind'
    exact hspecial
  · exact foldlM_ok_induction hmerge unclaimed_initial fun _ _ _ _ ht hfile =>
      merging_unclaimed.merge ht hfile

/-- A file that defines a constant, and a buffer of its own. -/
def plainFile : Object where
  path := "a.toml"
  symbols :=
    [{ name := "pi", kind := .constant, size := 0, alignment := some ⟨2⟩, value := some 7 },
     { name := "buffer", kind := .bss, kind_ne_undefined := bss_ne_undefined, isLocal := true,
       size := 64, alignment := some ⟨3⟩ }]
  imports := []

/-- A file that defines the same constant, asks for its export and for more alignment. -/
def askingFile : Object where
  path := "b.toml"
  symbols :=
    [{ name := "pi", kind := .constant, exported := true, size := 0, alignment := some ⟨4⟩,
       value := some 7 },
     { name := "buffer", kind := .bss, kind_ne_undefined := bss_ne_undefined, isLocal := true,
       size := 32, alignment := some ⟨3⟩ }]
  imports := []

/-- How `plainFile` is written. -/
def plainText : String :=
  "symbol = [[\"pi\", \"constant\", false, false, 4, 0, 7], " ++
    "[\"buffer\", \"bss\", true, false, 8, 64]]"

/-- How `askingFile` is written. -/
def askingText : String :=
  "symbol = [[\"pi\", \"constant\", false, true, 16, 0, 7], " ++
    "[\"buffer\", \"bss\", true, false, 8, 32]]"

theorem ofText_plainText_askingText : Object.ofText plainFile.path plainText = .ok plainFile ∧
    Object.ofText askingFile.path askingText = .ok askingFile := by
  decide +kernel

/-- The file that asks for more comes second. -/
def bothFiles : List (Object × Nat) := [(plainFile, 0), (askingFile, 1)]

/-- The request that comes too late. -/
def lateRequest : Definition := ⟨askingFile.symbols.head (by decide), versionIn askingFile 1⟩

theorem lateRequest_mem : lateRequest ∈ definitions bothFiles := .tail _ (.tail _ (.head _))

theorem read_bothFiles : ∀ f ∈ bothFiles, ∃ text, Object.ofText f.1.path text = .ok f.1 := by
  intro f hf
  rcases mem_cons.mp hf with rfl | hf
  · exact ⟨plainText, ofText_plainText_askingText.1⟩
  · cases mem_singleton.mp hf
    exact ⟨askingText, ofText_plainText_askingText.2⟩

theorem exists_merge_bothFiles : ∃ t, initial.mergeFiles bothFiles = .ok t := by decide +kernel

theorem definitions_agree_sample :
    (∀ f ∈ bothFiles, ∃ text, Object.ofText f.1.path text = .ok f.1) ∧
      ∃ t id, initial.mergeFiles bothFiles = .ok t ∧
        t.find? "pi" 0 = some id ∧ (t.get id).special = false ∧
        (t.get id).contents.map some = ⟨.constant, 0, [], some 7, []⟩ ∧
        ∀ more t', t.mergeFiles more = .ok t' →
          t'.find? "pi" 0 = some id ∧ (t'.get id).contents = (t.get id).contents := by
  obtain ⟨t, ht⟩ := exists_merge_bothFiles
  obtain ⟨hproper, hspecial, -⟩ := definitions_agree read_bothFiles ht
  obtain ⟨id, hfind, hcontents, -, hlater⟩ := hproper _ lateRequest_mem (by decide)
  refine ⟨read_bothFiles, t, id, ht, hfind, hspecial _ lateRequest_mem id hfind, hcontents.symm, ?_⟩
  intro more t' hmore
  obtain ⟨hfind', hcontents', -⟩ := hlater more t' hmore
  exact ⟨hfind', hcontents'⟩

/-- **Requests.** The mark for export and the alignment of a symbol are those of one of its
definitions. If any of them says what the symbol is, they are those of the first that does; what the
others ask for is dropped. -/
theorem requests_of_merge {files : List (Object × Nat)} {t : SymbolTable}
    (hread : ∀ f ∈ files, ∃ text, Object.ofText f.1.path text = .ok f.1)
    (hmerge : initial.mergeFiles files = .ok t) :
    ∀ d ∈ definitions files, ∃ id kept, d.find? t = some id ∧ kept ∈ definitions files ∧
      kept.key = d.key ∧ (t.get id).exported = kept.symbol.exported ∧
      (t.get id).alignment = kept.symbol.alignment ∧
      (d.isProper = true →
        (definitions files).find? (fun e => e.key = d.key && e.isProper) = some kept) := by
  intro d hd
  obtain ⟨id, hfind, -, ⟨kept, hkept⟩, hheld⟩ := (recorded_of_read hread hmerge).held d hd
  have hkey : d.key = (t.get id).key := (key_of_find? hfind).2
  refine ⟨id, kept, hfind, hkept.mem, hkept.key.trans hkey.symm, hkept.exported, hkept.alignment,
    fun hproper => ?_⟩
  rw [hkey]
  exact hkept.first (hheld hproper).1

/-- The second file asks for more than the first, and gets what the first asks for. -/
theorem requests_of_merge_sample :
    (∀ f ∈ bothFiles, ∃ text, Object.ofText f.1.path text = .ok f.1) ∧
      ∃ t id, initial.mergeFiles bothFiles = .ok t ∧
        t.find? "pi" 0 = some id ∧ (t.get id).exported = false ∧
        (t.get id).alignment = some ⟨2⟩ := by
  obtain ⟨t, ht⟩ := exists_merge_bothFiles
  obtain ⟨id, kept, hfind, -, -, hexported, halignment, hfirst⟩ :=
    requests_of_merge read_bothFiles ht _ lateRequest_mem
  have hkept : some kept = some ⟨plainFile.symbols.head (by decide), versionIn plainFile 0⟩ :=
    (hfirst (by decide)).symm
  cases hkept
  exact ⟨read_bothFiles, t, id, ht, hfind, hexported, halignment⟩

/-- Whether a constant that two files define alike is exported, and how it is aligned, depends on
which of the files comes first. -/
theorem requests_lost : ((initial.mergeFiles bothFiles).toOption.map fun t =>
        (t.find? "pi" 0).map fun id => ((t.get id).exported, (t.get id).alignment)) =
        some (some (false, some ⟨2⟩)) ∧
      ((initial.mergeFiles [(askingFile, 0), (plainFile, 1)]).toOption.map fun t =>
        (t.find? "pi" 0).map fun id => ((t.get id).exported, (t.get id).alignment)) =
        some (some (true, some ⟨4⟩)) := by
  decide +kernel

end SymbolTable

end ArmLink
