import ArmLink.Proofs.SymbolTable.Definitions
import ArmLink.Proofs.SymbolTable.Forest

/-!
# Names of one file

A file may have symbols of its own, which get a version that belongs to the file. What other files
call by the same name is another symbol.
-/

namespace ArmLink

open SymbolTable List

variable {c : Container} {o : Object} {index offset : Nat} {files : List (Object × Nat)}
  {sub outer : SymbolId} {l : PendingLink} {path : String} {links' pending : List PendingLink}

namespace Definition

/-- The relocations that are given, with the symbols that their targets name. -/
def relocations (d : Definition) (t : SymbolTable) : List (Relocation (Option SymbolId)) :=
  d.symbol.relocations.map (·.map fun name => t.find? name (d.version name))

/-- The definition puts its symbol there. -/
def Within (d : Definition) (t : SymbolTable) (c : Container) : Prop :=
  ∃ name, d.symbol.outer = some (name, c.offset) ∧ t.find? name (d.version name) = some c.symbol

/-- A symbol holds what the definition gives it, though a library may provide it since. -/
structure Gives (d : Definition) (t : SymbolTable) (s : Symbol) : Prop where
  key : d.key = s.key
  kind : s.kind = d.symbol.kind ∨ s.kind = .dynamicImport
  contents : d.contents t = { s.contents with kind := d.symbol.kind }.map some

theorem Within.finds {d : Definition} {t t' : SymbolTable} (h : d.Within t c)
    (hfinds : Finds t t') : d.Within t' c := by
  obtain ⟨name, houter, hfind⟩ := h
  exact ⟨name, houter, hfinds _ _ _ hfind⟩

end Definition

namespace SymbolTable

variable {t t' t'' : SymbolTable} {id : SymbolId} {defs : List Definition} {d : Definition}
  {links : List PendingLink} {version : String → Nat}

/-! ## Versions -/

theorem versionIn_eq (h : index + 1 < 2 ^ 32) (name : String) :
    versionIn o index name = if name ∈ localNames o then index + 1 else 0 := by
  simp only [versionIn, contains_iff_mem, BitVec.toNat_ofNat, Nat.mod_eq_of_lt h]

theorem versionIn_cases (h : index + 1 < 2 ^ 32) (name : String) :
    versionIn o index name = 0 ∨ versionIn o index name = index + 1 ∧ name ∈ localNames o := by
  rw [versionIn_eq h]
  split
  · rename_i hname
    exact .inr ⟨rfl, hname⟩
  · exact .inl rfl

theorem mem_definitions :
    d ∈ definitions files ↔ ∃ f ∈ files, ∃ s ∈ f.1.symbols, ⟨s, versionIn f.1 f.2⟩ = d := by
  simp only [definitions, mem_flatMap, mem_map]

/-- From `t` to `t'` symbols keep their names, and those that are new have version zero or the
version of their name. -/
structure Grows (version : String → Nat) (t t' : SymbolTable) : Prop where
  size : t.size ≤ t'.size
  key : ∀ id < t.size, (t'.get id).key = (t.get id).key
  fresh : ∀ id, t.size ≤ id → id < t'.size →
    (t'.get id).version = 0 ∨ (t'.get id).version = version (t'.get id).name

theorem Grows.refl (t : SymbolTable) : Grows version t t :=
  ⟨Nat.le_refl _, fun _ _ => rfl, fun _ hle hlt => absurd hlt (Nat.not_lt.mpr hle)⟩

theorem Grows.trans (h : Grows version t t') (h' : Grows version t' t'') : Grows version t t'' := by
  refine ⟨Nat.le_trans h.size h'.size,
    fun id hid => (h'.key id (Nat.lt_of_lt_of_le hid h.size)).trans (h.key id hid),
    fun id hle hlt => ?_⟩
  rcases Nat.lt_or_ge id t'.size with hid | hid
  · obtain ⟨hname, hversion⟩ := Prod.mk.inj (h'.key id hid)
    rw [hname, hversion]
    exact h.fresh id hle hid
  · exact h'.fresh id hid hlt

theorem Grows.lookup (t : SymbolTable) (name : String) {v : Nat} (hv : v = 0 ∨ v = version name) :
    Grows version t (t.lookup name v).2 := by
  have hquiet := Quiet.lookup t name v
  refine ⟨hquiet.size, hquiet.key, fun id hle hlt => ?_⟩
  rcases get_lookup t name v id with hget | ⟨-, -, hget⟩
  · rw [hget, get_of_size_le hle]
    exact .inl rfl
  · rw [hget]
    exact hv

theorem Keeps.grows (h : Keeps Symbol.key t t') : Grows version t t' := by
  refine ⟨Nat.le_of_eq h.1.symm, fun id _ => h.2 id, fun id hle hlt => ?_⟩
  rw [h.1] at hlt
  exact absurd hlt (Nat.not_lt.mpr hle)

theorem mergingWith_grows (version : String → Nat) (symbols : List ObjectSymbol)
    (t : SymbolTable) : MergingWith version symbols (Grows version t) where
  lookup t₁ name h := h.trans (.lookup t₁ name (.inr rfl))
  define _ _ _ _ _ _ _ h _ _ := h.trans (Keeps.grows (.modify rfl))
  contain _ _ _ _ _ h _ hcontain :=
    h.trans (Keeps.grows (keeps_contain (fun _ _ _ _ => rfl) hcontain))
  mergeImport t₁ i h := (h.trans (.lookup t₁ i.name (.inl rfl))).trans
    (Keeps.grows (keeps_mergeImport (fun _ _ _ _ => rfl) t₁ i))

/-- Merging a file makes symbols of the file and symbols that all files see. -/
theorem grows_merge (h : t.merge o index = .ok t') : Grows (versionIn o index) t t' :=
  (mergingWith_grows _ _ t).merge (.refl t) h

theorem key_mergeFiles (h : t.mergeFiles files = .ok t') :
    t.size ≤ t'.size ∧ ∀ id < t.size, (t'.get id).key = (t.get id).key := by
  refine foldlM_ok_induction (P := fun t' =>
    t.size ≤ t'.size ∧ ∀ id < t.size, (t'.get id).key = (t.get id).key) h
    ⟨Nat.le_refl _, fun _ _ => rfl⟩ fun t₁ f t₂ _ ⟨hsize, hkey⟩ hmerge => ?_
  have hgrows := grows_merge hmerge
  refine ⟨Nat.le_trans hsize hgrows.size, fun id hid => ?_⟩
  exact (hgrows.key id (Nat.lt_of_lt_of_le hid hsize)).trans (hkey id hid)

/-- The symbol is seen by all files, or one of the files has a symbol of its own with that name. -/
def Owned (files : List (Object × Nat)) (s : Symbol) : Prop :=
  s.version = 0 ∨ ∃ f ∈ files, s.version = f.2 + 1 ∧ s.name ∈ localNames f.1

theorem owned_mergeFiles (hindex : ∀ f ∈ files, f.2 + 1 < 2 ^ 32)
    (h : initial.mergeFiles files = .ok t) : ∀ id < t.size, Owned files (t.get id) := by
  refine foldlM_ok_induction (P := fun t => ∀ id < t.size, Owned files (t.get id)) h ?_
    fun t₁ f t₂ hf howned hmerge id hid => ?_
  · exact fun id _ => .inl (forall_get (P := fun s => s.version = 0) (by decide) rfl id)
  · have hgrows := grows_merge hmerge
    rcases Nat.lt_or_ge id t₁.size with hlt | hge
    · obtain ⟨hname, hversion⟩ := Prod.mk.inj (hgrows.key id hlt)
      rw [Owned, hname, hversion]
      exact howned id hlt
    · rcases hgrows.fresh id hge hid with hzero | hown
      · exact .inl hzero
      · rcases versionIn_cases (o := f.1) (hindex f hf) (t₂.get id).name with
          hzero | ⟨hlocal, hname⟩
        · exact .inl (hown.trans hzero)
        · exact .inr ⟨f, hf, hown.trans hlocal, hname⟩

/-! ## Targets and containers -/

/-- Quiet, and every symbol stays where it lies. -/
structure Still (t t' : SymbolTable) : Prop extends Quiet t t' where
  outer : ∀ id, (t'.get id).outer = (t.get id).outer

namespace Still

theorem refl (t : SymbolTable) : Still t t := ⟨.refl t, fun _ => rfl⟩

theorem trans (h : Still t t') (h' : Still t' t'') : Still t t'' :=
  ⟨h.toQuiet.trans h'.toQuiet, fun id => (h'.outer id).trans (h.outer id)⟩

theorem lookup (t : SymbolTable) (name : String) (version : Nat) :
    Still t (t.lookup name version).2 :=
  ⟨.lookup t name version, fun _ => read_lookup Symbol.outer (fun _ _ => rfl) ..⟩

theorem lookups (version : String → Nat) (t : SymbolTable) (names : List String) :
    Still t (t.lookups version names) :=
  foldl_induction (refl t) fun t₁ name _ ht => ht.trans (.lookup t₁ name _)

theorem mergeImport (t : SymbolTable) (i : ObjectImport) : Still t (t.mergeImport i) := by
  have hkeeps := keeps_mergeImport (p := Symbol.outer) (fun _ _ _ _ => rfl) t i
  exact ⟨.mergeImport t i, fun id => (hkeeps.2 id).trans ((lookup t i.name 0).outer id)⟩

end Still

/-- Nothing was said of what the symbol consists of. -/
def IsBlank (s : Symbol) : Prop :=
  (s.kind = .undefined ∨ s.kind = .dynamicImport) ∧ s.relocations = []

/-- The symbol lies there, or one of the links will put it there. -/
def Joined (links : List PendingLink) (t : SymbolTable) (sub : SymbolId) (c : Container) : Prop :=
  (t.get sub).outer = some c ∨ ∃ l ∈ links, l.sub = sub ∧ l.container = c

/-- Targets and containers are those that definitions of the symbol name. -/
structure Bound (defs : List Definition) (links : List PendingLink) (t : SymbolTable) : Prop where
  origin : ∀ id, IsBlank (t.get id) ∨ ∃ d ∈ defs, d.Gives t (t.get id)
  joined : ∀ sub c, Joined links t sub c → ∃ d ∈ defs, d.find? t = some sub ∧ d.Within t c

/-- Definitions that name a container have put their symbols there, other than those that say again
what one before them says. -/
def Placed (defs : List Definition) (links : List PendingLink) (t : SymbolTable) : Prop :=
  ∀ before d after, defs = before ++ d :: after → ∀ x, d.symbol.outer = some x →
    ∃ id, d.find? t = some id ∧ ((∃ c, Joined links t id c ∧ d.Within t c) ∨
      ∃ e ∈ before, e.key = d.key ∧ ∃ c : Contents SymbolId,
        e.contents t = c.map some ∧ d.contents t = c.map some)

theorem Joined.still (h : Still t t') : Joined links t' sub c ↔ Joined links t sub c := by
  rw [Joined, Joined, h.outer]

section

variable (h : Bound defs links t)
include h

/-- Quiet changes that put no symbol anywhere else keep targets and containers. -/
theorem Bound.quiet (hquiet : Quiet t t')
    (hjoined : ∀ sub c, Joined links' t' sub c → Joined links t sub c) : Bound defs links' t' := by
  refine ⟨fun id => ?_, fun sub c hc => ?_⟩
  · rcases h.origin id with ⟨hkind, hempty⟩ | ⟨d, hd, hgives⟩
    · refine .inl ⟨?_, (hquiet.read (fun _ => rfl) id).trans hempty⟩
      rcases hquiet.kind id with hsame | ⟨himport, -⟩
      · rwa [hsame]
      · exact .inr himport
    · have hlt : id < t.size := by
        refine lt_size_of_get (P := fun s => s.kind = d.symbol.kind ∨ s.kind = .dynamicImport)
          hgives.kind ?_
        rintro (hkind | hkind)
        · exact d.symbol.kind_ne_undefined hkind.symm
        · cases hkind
      refine .inr ⟨d, hd, hgives.key.trans (hquiet.key id hlt).symm, ?_, ?_⟩
      · rcases hquiet.kind id with hsame | ⟨himport, -⟩
        · rw [hsame]
          exact hgives.kind
        · exact .inr himport
      · rw [hquiet.contents]
        exact contents_of_finds hquiet.finds hgives.contents
  · obtain ⟨d, hd, hfind, hwithin⟩ := h.joined sub c (hjoined sub c hc)
    exact ⟨d, hd, hquiet.finds _ _ _ hfind, hwithin.finds hquiet.finds⟩

theorem Bound.still (hstill : Still t t') : Bound defs links t' :=
  h.quiet hstill.toQuiet fun _ _ => (Joined.still hstill).mp

theorem Bound.append (more : List Definition) : Bound (defs ++ more) links t := by
  refine ⟨fun id => ?_, fun sub c hjoined => ?_⟩
  · rcases h.origin id with hblank | ⟨d, hd, hgives⟩
    · exact .inl hblank
    · exact .inr ⟨d, mem_append_left more hd, hgives⟩
  · obtain ⟨d, hd, hplace⟩ := h.joined sub c hjoined
    exact ⟨d, mem_append_left more hd, hplace⟩

theorem Bound.define {relocations : List (Relocation SymbolId)} (hfind : d.find? t = some id)
    (hrelocations : d.relocations t = relocations.map (·.map some)) :
    Bound (defs ++ [d]) links (t.modify id (SymbolTable.define d.symbol relocations)) := by
  obtain ⟨hlt, hkey⟩ := key_of_find? hfind
  have houter : Keeps Symbol.outer t (t.modify id (SymbolTable.define d.symbol relocations)) :=
    .modify rfl
  have hfinds : Finds t (t.modify id (SymbolTable.define d.symbol relocations)) :=
    fun name version j hfind => (finds_define t id d.symbol relocations name version).trans hfind
  refine ⟨fun j => ?_, fun sub c hjoined => ?_⟩
  · by_cases hj : j = id
    · subst hj
      refine .inr ⟨d, mem_append_right defs mem_cons_self, ?_⟩
      rw [get_modify_self hlt]
      refine ⟨hkey, .inl rfl, contents_of_finds hfinds ?_⟩
      exact congrArg (Contents.mk d.symbol.kind d.symbol.size d.symbol.data d.symbol.value)
        hrelocations
    · rw [get_modify_ne hj]
      rcases h.origin j with hblank | ⟨e, he, hgives⟩
      · exact .inl hblank
      · exact .inr ⟨e, mem_append_left [d] he, hgives.key, hgives.kind,
          contents_of_finds hfinds hgives.contents⟩
  · rw [Joined, houter.2] at hjoined
    obtain ⟨e, he, hfind', hwithin⟩ := h.joined sub c hjoined
    exact ⟨e, mem_append_left [d] he, hfinds _ _ _ hfind', hwithin.finds hfinds⟩

/-- What a definition says again of a symbol, one before it has said. -/
theorem Bound.exists_earlier (hfind : d.find? t = some id)
    (hdefined : ((t.get id).isDefined && !(t.get id).isImport) = true)
    (hcontents : d.contents t = (t.get id).contents.map some) :
    ∃ e ∈ defs, e.key = d.key ∧ e.contents t = (t.get id).contents.map some := by
  have hkind : d.symbol.kind = (t.get id).kind := congrArg Contents.kind hcontents
  have himport : (t.get id).kind ≠ .dynamicImport := by
    intro himport
    simp [Symbol.isImport, himport] at hdefined
  rcases h.origin id with ⟨hblank | hblank, -⟩ | ⟨e, he, hgives⟩
  · exact absurd (hkind.trans hblank) d.symbol.kind_ne_undefined
  · exact absurd hblank himport
  · refine ⟨e, he, hgives.key.trans (key_of_find? hfind).2.symm, ?_⟩
    rw [hgives.contents, ← hgives.kind.resolve_right himport]
    rfl

end

theorem Joined.append (l : PendingLink) :
    Joined (links ++ [l]) t sub c ↔ Joined links t sub c ∨ l.sub = sub ∧ l.container = c := by
  simp only [Joined, mem_append, mem_singleton, or_and_right, exists_or, exists_eq_left,
    or_assoc]

theorem Bound.addLink (h : Bound defs links t) (hd : d ∈ defs) (hfind : d.find? t = some l.sub)
    (hwithin : d.Within t l.container) : Bound defs (links ++ [l]) t := by
  refine ⟨h.origin, fun sub c hjoined => ?_⟩
  rcases (Joined.append l).mp hjoined with hjoined | ⟨rfl, rfl⟩
  · exact h.joined sub c hjoined
  · exact ⟨d, hd, hfind, hwithin⟩

theorem Placed.mono (h : Placed defs links t) (hfinds : Finds t t')
    (hjoined : ∀ sub c, Joined links t sub c → Joined links' t' sub c) : Placed defs links' t' := by
  intro before d after hdefs x hx
  obtain ⟨id, hfind, ⟨c, hc, hwithin⟩ | ⟨e, he, hkey, c, hcontents, hcontents'⟩⟩ :=
    h before d after hdefs x hx
  · exact ⟨id, hfinds _ _ _ hfind, .inl ⟨c, hjoined id c hc, hwithin.finds hfinds⟩⟩
  · exact ⟨id, hfinds _ _ _ hfind, .inr ⟨e, he, hkey, c, contents_of_finds hfinds hcontents,
      contents_of_finds hfinds hcontents'⟩⟩

theorem Placed.append (h : Placed defs links t) (hd : ∀ x, d.symbol.outer = some x →
      ∃ id, d.find? t = some id ∧ ((∃ c, Joined links t id c ∧ d.Within t c) ∨
        ∃ e ∈ defs, e.key = d.key ∧ ∃ c : Contents SymbolId,
          e.contents t = c.map some ∧ d.contents t = c.map some)) :
    Placed (defs ++ [d]) links t := by
  intro before e after hdefs x hx
  rcases eq_nil_or_concat after with rfl | ⟨after, last, rfl⟩
  · obtain ⟨rfl, hlast⟩ := append_inj' hdefs rfl
    cases hlast
    exact hd x hx
  · have hsplit : defs ++ [d] = (before ++ e :: after) ++ [last] := by
      rw [hdefs, concat_eq_append, append_assoc, cons_append]
    exact h before e after (append_inj' hsplit rfl).1 x hx

/-! ## One file -/

/-- **One definition.** Its targets and its container are bound, the container at first by a
link. -/
theorem Bound.mergeSymbol {o : ObjectSymbol} {link : Option PendingLink} (h : Bound defs links t)
    (hplaced : Placed defs links t)
    (hmerge : SymbolTable.mergeSymbol path version t o = .ok (link, t')) :
    Bound (defs ++ [⟨o, version⟩]) (links ++ link.toList) t' ∧
      Placed (defs ++ [⟨o, version⟩]) (links ++ link.toList) t' := by
  obtain ⟨id, -, relocations, t₁, -, hlooked, hfind, hrelocations, -, hcases⟩ :=
    mergeSymbol_ok hmerge
  have hstill : Still t t₁ := hlooked ▸ .lookups ..
  have h₁ : Bound defs links t₁ := h.still hstill
  have hplaced₁ : Placed defs links t₁ :=
    hplaced.mono hstill.finds fun sub c => (Joined.still hstill).mpr
  rcases hcases with ⟨hdefined, hrepeats, rfl, rfl⟩ | ⟨-, hcases⟩
  · rw [Option.toList_none, append_nil]
    refine ⟨h₁.append _, hplaced₁.append fun x hx => ⟨id, hfind, .inr ?_⟩⟩
    have hcontents : Definition.contents ⟨o, version⟩ t' = (t'.get id).contents.map some := by
      rw [repeats_iff.mp hrepeats]
      exact congrArg (Contents.mk o.kind o.size o.data o.value) hrelocations
    obtain ⟨e, he, hkey, hcontents'⟩ :=
      h₁.exists_earlier (d := ⟨o, version⟩) hfind hdefined hcontents
    exact ⟨e, he, hkey, _, hcontents', hcontents⟩
  · have h₂ := h₁.define (d := ⟨o, version⟩) hfind hrelocations
    have hfinds : Finds t₁ (t₁.modify id (SymbolTable.define o relocations)) :=
      fun name version j hj => (finds_define t₁ id o relocations name version).trans hj
    have houter : Keeps Symbol.outer t₁ (t₁.modify id (SymbolTable.define o relocations)) :=
      .modify rfl
    have hplaced₂ : Placed defs links (t₁.modify id (SymbolTable.define o relocations)) :=
      hplaced₁.mono hfinds fun sub c hjoined => by rwa [Joined, houter.2]
    rcases hcases with ⟨hnone, rfl, rfl⟩ | ⟨name, offset, outer, hsome, rfl, hlooked', hfound⟩
    · rw [Option.toList_none, append_nil]
      refine ⟨h₂, hplaced₂.append fun x hx => ?_⟩
      cases hnone.symm.trans hx
    · have hstill₂ : Still (t₁.modify id (SymbolTable.define o relocations)) t' :=
        hlooked' ▸ .lookups ..
      have hfind' : Definition.find? ⟨o, version⟩ t' = some id :=
        hstill₂.finds _ _ _ (hfinds _ _ _ hfind)
      have hwithin : Definition.Within ⟨o, version⟩ t' ⟨outer, offset⟩ := ⟨name, hsome, hfound⟩
      refine ⟨(h₂.still hstill₂).addLink (mem_append_right defs mem_cons_self) hfind'
        hwithin, Placed.append (hplaced₂.mono hstill₂.finds fun sub c hjoined => ?_) fun x hx => ?_⟩
      · exact (Joined.append _).mpr (.inl ((Joined.still hstill₂).mpr hjoined))
      · exact ⟨id, hfind', .inl ⟨_, (Joined.append _).mpr (.inr ⟨rfl, rfl⟩), hwithin⟩⟩

theorem Bound.mergeSymbols {os : List ObjectSymbol} (h : Bound defs links t)
    (hplaced : Placed defs links t)
    (hmerge : SymbolTable.mergeSymbols path version t os = .ok (pending, t')) :
    Bound (defs ++ os.map (⟨·, version⟩)) (links ++ pending) t' ∧
      Placed (defs ++ os.map (⟨·, version⟩)) (links ++ pending) t' := by
  refine mergeSymbols_induction (Q := fun os pending t =>
    Bound (defs ++ os.map (⟨·, version⟩)) (links ++ pending) t ∧
      Placed (defs ++ os.map (⟨·, version⟩)) (links ++ pending) t) ?_
    (fun done pending t link t' o _ ⟨h, hplaced⟩ hmerge => ?_) hmerge
  · rw [map_nil, append_nil, append_nil]
    exact ⟨h, hplaced⟩
  · rw [map_append, ← append_assoc, ← append_assoc]
    exact h.mergeSymbol hplaced hmerge

/-- A link that was made puts its symbol where it says, and all others stay where they are. -/
theorem outer_contain (h : t.contain sub outer offset = .ok t') (id : SymbolId) :
    (t'.get id).outer =
      if id = sub ∧ sub < t.size then some ⟨outer, offset⟩ else (t.get id).outer := by
  rcases contain_ok h with ⟨hsame, rfl⟩ | ⟨-, -, -, rfl⟩
  · split
    · rename_i hid
      rw [hid.1, hsame]
    · rfl
  · exact outer_putWithin

theorem outer_of_contain (h : t.contain sub outer offset = .ok t')
    (hc : (t.get id).outer = some c) : (t'.get id).outer = some c := by
  rcases contain_ok h with ⟨-, rfl⟩ | ⟨hnone, -, -, rfl⟩
  · exact hc
  · rw [outer_putWithin, if_neg, hc]
    rintro ⟨rfl, -⟩
    cases hnone.symm.trans hc

/-- **One link.** The links stay what they are while one of them is made. -/
theorem Bound.contain (h : Bound defs links t) (hplaced : Placed defs links t) (hl : l ∈ links)
    (hcontain : t.contain l.sub l.outer l.offset = .ok t') :
    Bound defs links t' ∧ Placed defs links t' := by
  have hquiet := Quiet.contain hcontain
  refine ⟨h.quiet hquiet fun sub c hjoined => ?_, hplaced.mono hquiet.finds fun sub c hjoined => ?_⟩
  · rcases hjoined with houter | hlink
    · rw [outer_contain hcontain] at houter
      split at houter
      · rename_i hid
        cases houter
        exact .inr ⟨l, hl, hid.1.symm, rfl⟩
      · exact .inl houter
    · exact .inr hlink
  · rcases hjoined with houter | hlink
    · exact .inl (outer_of_contain hcontain houter)
    · exact .inr hlink

theorem Bound.sub_lt (h : Bound defs links t) (hl : l ∈ links) : l.sub < t.size := by
  obtain ⟨d, -, hfind, -⟩ := h.joined l.sub l.container (.inr ⟨l, hl, rfl, rfl⟩)
  exact (key_of_find? hfind).1

/-- All links of a file. Those that were made stay, and each of them was. -/
theorem outer_mergeLinks (hmerge : SymbolTable.mergeLinks path t pending = .ok t') :
    (∀ id c, (t.get id).outer = some c → (t'.get id).outer = some c) ∧
      ∀ l ∈ pending, l.sub < t.size → (t'.get l.sub).outer = some l.container := by
  induction pending generalizing t with
  | nil =>
    obtain rfl := pure_eq_ok.mp hmerge
    exact ⟨fun _ _ hc => hc, nofun⟩
  | cons l pending ih =>
    obtain ⟨t₁, hfirst, hrest⟩ := bind_eq_ok.mp hmerge
    have hcontain := mapError_eq_ok.mp hfirst
    have hsize := (Quiet.contain hcontain).size
    obtain ⟨hstays, hmade⟩ := ih hrest
    refine ⟨fun id c hc => hstays id c (outer_of_contain hcontain hc), forall_mem_cons.mpr
      ⟨fun hl => hstays _ _ ?_, fun l' hl' hlt => hmade l' hl' (Nat.lt_of_lt_of_le hlt hsize)⟩⟩
    rw [outer_contain hcontain, if_pos ⟨rfl, hl⟩]
    rfl

theorem Bound.mergeLinks (h : Bound defs links t) (hplaced : Placed defs links t)
    (hmerge : SymbolTable.mergeLinks path t links = .ok t') :
    Bound defs links t' ∧ Placed defs links t' :=
  foldlM_ok_induction (P := fun t => Bound defs links t ∧ Placed defs links t) hmerge ⟨h, hplaced⟩
    fun _ _ _ hl ht hlink => ht.1.contain ht.2 hl (mapError_eq_ok.mp hlink)

/-- **One file.** Its links are made before the next file is merged. -/
theorem Bound.merge {ob : Object} (h : Bound defs [] t) (hplaced : Placed defs [] t)
    (hmerge : t.merge ob index = .ok t') :
    Bound (defs ++ ob.symbols.map (⟨·, versionIn ob index⟩)) [] t' ∧
      Placed (defs ++ ob.symbols.map (⟨·, versionIn ob index⟩)) [] t' := by
  obtain ⟨links, t₁, t₂, hsymbols, hlinks, rfl⟩ := merge_ok hmerge
  obtain ⟨h₁, hplaced₁⟩ := h.mergeSymbols hplaced hsymbols
  obtain ⟨h₂, hplaced₂⟩ := h₁.mergeLinks hplaced₁ hlinks
  obtain ⟨-, hmade⟩ := outer_mergeLinks hlinks
  have hstill : Still t₂ (ob.imports.foldl mergeImport t₂) :=
    foldl_induction (P := Still t₂) (.refl t₂) fun t i _ ht => ht.trans (.mergeImport t i)
  refine ⟨Bound.still (h₂.quiet (.refl t₂) fun sub c hjoined => ?_) hstill,
    hplaced₂.mono hstill.finds fun sub c hjoined => ?_⟩
  · exact .inl (hjoined.resolve_right nofun)
  · refine .inl ((hstill.outer sub).trans ?_)
    rcases hjoined with houter | ⟨l, hl, rfl, rfl⟩
    · exact houter
    · exact hmade l hl (h₁.sub_lt hl)

theorem bound_mergeFiles (hmerge : initial.mergeFiles files = .ok t) :
    Bound (definitions files) [] t ∧ Placed (definitions files) [] t := by
  have hinitial : Bound [] [] initial ∧ Placed [] [] initial := by
    refine ⟨⟨fun id => .inl ?_, fun sub c hjoined => ?_⟩, fun before d after hdefs => ?_⟩
    · exact ⟨.inl (forall_get (P := fun s => s.kind = .undefined) (by decide) rfl id),
        forall_get (P := fun s => s.relocations = []) (by decide) rfl id⟩
    · have hnone : (initial.get sub).outer = none :=
        forall_get (P := fun s => s.outer = none) (by decide) rfl sub
      cases hnone.symm.trans (hjoined.resolve_right nofun)
    · cases before <;> cases hdefs
  exact mergeFiles_induction (P := fun defs t => Bound defs [] t ∧ Placed defs [] t) hinitial hmerge
    fun f _ defs t t' h hmerge => h.1.merge h.2 hmerge

/-! ## Files do not meddle -/

/-- Which symbols the names in files mean. -/
structure Hygienic (files : List (Object × Nat)) (t : SymbolTable) : Prop where
  /-- a name that a file has a symbol of its own for means that symbol there, and any other name
  the one that all files see -/
  version : ∀ f ∈ files, ∀ name,
    versionIn f.1 f.2 name = if name ∈ localNames f.1 then f.2 + 1 else 0
  /-- what a name means in a file belongs to no other file -/
  apart : ∀ f ∈ files, ∀ name id, t.find? name (versionIn f.1 f.2 name) = some id →
    ∀ g ∈ files, (t.get id).version = g.2 + 1 → g = f
  /-- definitions define the symbols that their names mean, and relocations lead where the names of
  their targets do; nothing is said here of definitions that only name an object of the host, which
  do not replace what is there -/
  targets : ∀ d ∈ definitions files, d.isProper = true → ∃ id, d.find? t = some id ∧
    d.relocations t = (t.get id).relocations.map (·.map some)
  /-- a definition puts its symbol within the one that the name of the container means, unless it
  says again what a definition before it says -/
  containers : ∀ before d after, definitions files = before ++ d :: after →
    ∀ x, d.symbol.outer = some x → ∃ id, d.find? t = some id ∧
      ((∃ c, (t.get id).outer = some c ∧ d.Within t c) ∨
        ∃ e ∈ before, e.key = d.key ∧ e.contents t = d.contents t)
  /-- symbols have no relocations but those that a definition gives them -/
  targets_from : ∀ id, (t.get id).relocations ≠ [] → ∃ d ∈ definitions files,
    d.key = (t.get id).key ∧ d.relocations t = (t.get id).relocations.map (·.map some)
  /-- symbols lie within no others but those that a definition puts them in -/
  containers_from : ∀ id c, (t.get id).outer = some c → ∃ d ∈ definitions files,
    d.find? t = some id ∧ d.Within t c
  /-- merging a file makes no symbols but its own and those that all files see -/
  created : ∀ before f after t₁ t₂, files = before ++ f :: after →
    initial.mergeFiles before = .ok t₁ → t₁.merge f.1 f.2 = .ok t₂ →
    ∀ id, t₁.size ≤ id → id < t₂.size → (t.get id).version = 0 ∨
      (t.get id).version = f.2 + 1 ∧ (t.get id).name ∈ localNames f.1
  /-- a symbol that not all files see belongs to exactly one of them -/
  owner : ∀ id, (t.get id).version ≠ 0 → ∃ f ∈ files, (t.get id).version = f.2 + 1 ∧
    (t.get id).name ∈ localNames f.1 ∧ ∀ g ∈ files, (t.get id).version = g.2 + 1 → g = f
  /-- it refers to symbols of that file and to those that all files see -/
  closed : ∀ id, (t.get id).version ≠ 0 → ∀ j,
    ((∃ r ∈ (t.get id).relocations, r.target? = some j) ∨ ∃ c ∈ (t.get id).outer, c.symbol = j) →
      (t.get j).version = 0 ∨ (t.get j).version = (t.get id).version
  /-- the targets of a symbol that not all files see belong to one file -/
  uniform : ∀ id, ∀ r ∈ (t.get id).relocations, ∀ r' ∈ (t.get id).relocations, ∀ j j',
    r.target? = some j → r'.target? = some j' → (t.get j).version ≠ 0 → (t.get j').version ≠ 0 →
      (t.get j).version = (t.get j').version

/-- **Hygiene.** When files are merged whose indices differ and have 32 bits, no file refers to a
symbol that another one has for itself, whatever names they share. That a shared library provides a
symbol files say in their imports only, as `Object.kind_of_ofText` knows of all that are read. -/
theorem hygienic_of_merge {files : List (Object × Nat)}
    (hkind : ∀ f ∈ files, ∀ s ∈ f.1.symbols, s.kind ≠ .dynamicImport)
    (hindex : ∀ f ∈ files, f.2 + 1 < 2 ^ 32) (hdistinct : (files.map Prod.snd).Nodup)
    (hmerge : initial.mergeFiles files = .ok t) : Hygienic files t := by
  obtain ⟨hbound, hplaced⟩ := bound_mergeFiles hmerge
  have hsame {f g : Object × Nat} (hf : f ∈ files) (hg : g ∈ files) (h : f.2 = g.2) : f = g :=
    inj_on_of_nodup_map hdistinct hf hg h
  have hmeans {f : Object × Nat} (hf : f ∈ files) {name : String} {id : SymbolId}
      (hfind : t.find? name (versionIn f.1 f.2 name) = some id) :
      (t.get id).version = 0 ∨ (t.get id).version = f.2 + 1 := by
    rw [(find?_eq_some hfind).2.2]
    exact (versionIn_cases (hindex f hf) name).imp_right And.left
  have hfrom id (hne : (t.get id).relocations ≠ []) : ∃ d ∈ definitions files,
      d.key = (t.get id).key ∧ d.relocations t = (t.get id).relocations.map (·.map some) := by
    rcases hbound.origin id with ⟨-, hempty⟩ | ⟨d, hd, hgives⟩
    · exact absurd hempty hne
    · exact ⟨d, hd, hgives.key, congrArg Contents.relocations hgives.contents⟩
  refine ⟨fun f hf => versionIn_eq (hindex f hf), fun f hf name id hfind g hg hversion => ?apart,
    fun d hd hproper => ?targets, fun before d after hdefs x hx => ?containers, hfrom,
    fun id c hc => hbound.joined id c (.inl hc),
    fun before f after t₁ t₂ hfiles hbefore hf id hle hlt => ?created,
    fun id hid => ?owner, fun id hid j hj => ?closed,
    fun id r hr r' hr' j j' hj hj' hne hne' => ?uniform⟩
  case apart =>
    rcases hmeans hf hfind with hzero | hown
    · omega
    · exact hsame hg hf (by omega)
  case targets =>
    obtain ⟨id, hfind, -, -, hheld⟩ := (recorded_of_kind hkind hmerge).held d hd
    exact ⟨id, hfind, congrArg Contents.relocations (hheld hproper).2⟩
  case containers =>
    obtain ⟨id, hfind, ⟨c, hjoined, hwithin⟩ | ⟨e, he, hkey, c, hcontents, hcontents'⟩⟩ :=
      hplaced before d after hdefs x hx
    · exact ⟨id, hfind, .inl ⟨c, hjoined.resolve_right nofun, hwithin⟩⟩
    · exact ⟨id, hfind, .inr ⟨e, he, hkey, hcontents.trans hcontents'.symm⟩⟩
  case created =>
    subst hfiles
    rw [SymbolTable.mergeFiles, foldlM_append] at hmerge
    obtain ⟨t₁', hbefore', hmerge⟩ := bind_eq_ok.mp hmerge
    cases hbefore.symm.trans hbefore'
    rw [foldlM_cons] at hmerge
    obtain ⟨t₂', hf', hmerge⟩ := bind_eq_ok.mp hmerge
    cases hf.symm.trans hf'
    obtain ⟨hname, hversion⟩ := Prod.mk.inj ((key_mergeFiles hmerge).2 id hlt)
    rw [hname, hversion]
    rcases (grows_merge hf).fresh id hle hlt with hzero | hown
    · exact .inl hzero
    · rw [hown]
      exact versionIn_cases (hindex f (by simp)) _
  case owner =>
    have hlt : id < t.size := lt_size_of_get (P := (·.version ≠ 0)) hid fun h => h rfl
    rcases owned_mergeFiles hindex hmerge id hlt with hzero | ⟨f, hf, hversion, hname⟩
    · exact absurd hzero hid
    · exact ⟨f, hf, hversion, hname, fun g hg hversion' => hsame hg hf (by omega)⟩
  case closed =>
    -- the definition that `id` has its reference from is in the file that it belongs to
    have howner {d : Definition} (hd : d ∈ definitions files) (hkey : d.key = (t.get id).key)
        {name : String} (hfind : t.find? name (d.version name) = some j) :
        (t.get j).version = 0 ∨ (t.get j).version = (t.get id).version := by
      obtain ⟨f, hf, s, -, rfl⟩ := mem_definitions.mp hd
      have hversion : versionIn f.1 f.2 s.name = (t.get id).version := congrArg Prod.snd hkey
      have hown : (t.get id).version = f.2 + 1 := by
        rw [← hversion] at hid ⊢
        exact ((versionIn_cases (hindex f hf) s.name).resolve_left hid).1
      rw [hown]
      exact hmeans hf hfind
    rcases hj with ⟨r, hr, hj⟩ | ⟨c, hc, rfl⟩
    · obtain ⟨d, hd, hkey, hrelocations⟩ := hfrom id (ne_nil_of_mem hr)
      obtain ⟨name, hfind⟩ := Relocation.exists_of_map_eq hrelocations hr hj
      exact howner hd hkey hfind
    · obtain ⟨d, hd, hfind, name, -, hname⟩ := hbound.joined id c (.inl hc)
      exact howner hd (key_of_find? hfind).2 hname
  case uniform =>
    obtain ⟨d, hd, -, hrelocations⟩ := hfrom id (ne_nil_of_mem hr)
    obtain ⟨f, hf, s, -, rfl⟩ := mem_definitions.mp hd
    obtain ⟨name, hfind⟩ := Relocation.exists_of_map_eq hrelocations hr hj
    obtain ⟨name', hfind'⟩ := Relocation.exists_of_map_eq hrelocations hr' hj'
    rw [(hmeans hf hfind).resolve_left hne, (hmeans hf hfind').resolve_left hne']

/-- A relocation that leads to a buffer. -/
def toBuffer : Relocation String := ⟨0, 4, .pending .absolute (some "buffer") 0⟩

theorem text_ne_undefined : SymbolKind.text ≠ .undefined := by decide

/-- A file with a buffer of its own, a name for the end of it and code that uses it. -/
def ownBuffer : Object where
  path := "a.toml"
  symbols :=
    [{ name := "buffer", kind := .bss, kind_ne_undefined := bss_ne_undefined, isLocal := true,
       size := 8 },
     { name := "tail", kind := .bss, kind_ne_undefined := bss_ne_undefined, isLocal := true,
       size := 4, outer := some ("buffer", 4) },
     { name := "main", kind := .text, kind_ne_undefined := text_ne_undefined, size := 4,
       data := [0, 0, 0, 0], relocations := [toBuffer] }]
  imports := []

/-- A file with a buffer that all files see and code that uses it. -/
def sharedBuffer : Object where
  path := "b.toml"
  symbols :=
    [{ name := "buffer", kind := .bss, kind_ne_undefined := bss_ne_undefined, size := 8 },
     { name := "run", kind := .text, kind_ne_undefined := text_ne_undefined, size := 4,
       data := [0, 0, 0, 0], relocations := [toBuffer] }]
  imports := []

/-- Both files call a symbol `buffer`. -/
def namesakes : List (Object × Nat) := [(ownBuffer, 0), (sharedBuffer, 1)]

/-- Where the first relocation of a symbol that all files see leads. -/
def firstTarget? (t : SymbolTable) (name : String) : Option (String × Nat) := do
  let id ← t.find? name 0
  let r ← (t.get id).relocations.head?
  let target ← r.target?
  return (t.get target).key

/-- The two files mean different symbols by the name. -/
theorem hygienic_of_merge_sample : (∀ f ∈ namesakes, ∀ s ∈ f.1.symbols, s.kind ≠ .dynamicImport) ∧
      (∀ f ∈ namesakes, f.2 + 1 < 2 ^ 32) ∧ (namesakes.map Prod.snd).Nodup ∧
      ∃ t, initial.mergeFiles namesakes = .ok t ∧
        (firstTarget? t "main", firstTarget? t "run") = (some ("buffer", 1), some ("buffer", 0)) ∧
        Hygienic namesakes t := by
  have hkind : ∀ f ∈ namesakes, ∀ s ∈ f.1.symbols, s.kind ≠ .dynamicImport := by decide
  have hindex : ∀ f ∈ namesakes, f.2 + 1 < 2 ^ 32 := by decide
  have hdistinct : (namesakes.map Prod.snd).Nodup := by decide
  obtain ⟨t, ht, htargets⟩ : ∃ t, initial.mergeFiles namesakes = .ok t ∧
      (firstTarget? t "main", firstTarget? t "run") = (some ("buffer", 1), some ("buffer", 0)) := by
    decide +kernel
  exact ⟨hkind, hindex, hdistinct, t, ht, htargets, hygienic_of_merge hkind hindex hdistinct ht⟩

/-- Room with or without a container around it. -/
def partAndWhole (outer : Option (String × Nat)) : Object where
  path := "part.toml"
  symbols :=
    [{ name := "part", kind := .bss, kind_ne_undefined := bss_ne_undefined, size := 4, outer },
     { name := "whole", kind := .bss, kind_ne_undefined := bss_ne_undefined, size := 8 }]
  imports := []

/-- What the part lies within after two files were merged. -/
def outerOfPart? (first second : Option (String × Nat)) : Option (Option Container) :=
  (initial.mergeFiles [(partAndWhole first, 0), (partAndWhole second, 1)]).toOption.map
    fun t => (t.get 19).outer

/-- A container that only a later one of two definitions names is forgotten. -/
theorem names_mixed_up : outerOfPart? none (some ("whole", 4)) = some none ∧
    outerOfPart? (some ("whole", 4)) none = some (some ⟨20, 4⟩) := by
  decide +kernel

/-- Files whose indices differ by `2 ^ 32` share the symbols that are meant to be their own. A link
numbers its files from zero on, so it takes more than `2 ^ 32` of them. -/
theorem indices_mixed_up : ((initial.mergeFiles
        [(ownBuffer, 0), ({ ownBuffer with path := "b.toml" }, 2 ^ 32)]).toOption.map fun t =>
      (t.find? "buffer" 1, t.find? "buffer" (2 ^ 32 + 1))) = some (some 19, none) := by
  decide +kernel

end SymbolTable

end ArmLink
