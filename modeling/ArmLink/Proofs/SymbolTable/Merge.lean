import ArmLink.Proofs.Relocation
import ArmLink.Proofs.SymbolTable
import ArmLink.SymbolTable.Merge

/-!
# Merging, change by change

Merging an object looks names up, gives symbols their definitions, links them to their containers
and notes imports. Only a definition gives a symbol contents.
-/

namespace ArmLink

open SymbolTable List

variable {t t' t'' : SymbolTable} {id : SymbolId} {path : String} {o : ObjectSymbol}
  {link : Option PendingLink} {links : List PendingLink} {os : List ObjectSymbol} {index : Nat}
  {version : String → Nat}

namespace SymbolTable

/-- The table after names were looked up. -/
def lookups (version : String → Nat) (t : SymbolTable) (names : List String) : SymbolTable :=
  names.foldl (fun t name => (t.lookup name (version name)).2) t

theorem bind_snd (version : String → Nat) (t : SymbolTable)
    (relocations : List (Relocation String)) :
    (bind version t relocations).2 = t.lookups version (relocations.filterMap (·.target?)) := by
  induction relocations generalizing t with
  | nil => rfl
  | cons r relocations ih =>
    rw [bind, filterMap_cons]
    cases r.target? with
    | none => exact ih t
    | some name => exact ih _

theorem bind_of_found {relocations : List (Relocation String)}
    (h : ∀ r ∈ relocations, r.LeadsTo fun name => (t.find? name (version name)).isSome = true) :
    (bind version t relocations).2 = t := by
  rw [bind_snd]
  refine foldl_induction (P := (· = t)) rfl fun _ name hname ht => ?_
  obtain ⟨r, hr, htarget⟩ := mem_filterMap.mp hname
  obtain ⟨id, hfind⟩ := Option.isSome_iff_exists.mp (h r hr name htarget)
  simp only [ht, lookup, hfind]

theorem keeps_mergeImport {α : Type} {p : Symbol → α}
    (hp : ∀ s kind importName importLibrary, p { s with kind, importName, importLibrary } = p s)
    (t : SymbolTable) (i : ObjectImport) : Keeps p (t.lookup i.name 0).2 (t.mergeImport i) := by
  have hnote (s : Symbol) : p (if s.kind = .undefined ∨ s.kind = .hostObject then
      { s with kind := .dynamicImport, importName := i.remote, importLibrary := i.library }
      else s) = p s := by
    split
    · exact hp ..
    · rfl
  exact .modify (hnote _)

end SymbolTable

/-! ## All changes -/

/-- Each change that merging an object with these symbols makes, in which names have these versions,
preserves the property `Q` of tables. -/
structure MergingWith (version : String → Nat) (symbols : List ObjectSymbol)
    (Q : SymbolTable → Prop) : Prop where
  lookup : ∀ t name, Q t → Q (t.lookup name (version name)).2
  /-- a symbol gets its definition, with the relocations that were bound for it -/
  define : ∀ t id relocations t₀, ∀ o ∈ symbols,
    SymbolTable.bind version t₀ o.relocations = (relocations, t) → Q t →
      (t.get id).special = false → ((t.get id).isDefined && !(t.get id).isImport) = false →
        Q (t.modify id (SymbolTable.define o relocations))
  /-- a symbol that is not the linker's becomes part of another one -/
  contain : ∀ t sub outer offset t', Q t → (t.get sub).special = false →
    t.contain sub outer offset = .ok t' → Q t'
  mergeImport : ∀ t i, Q t → Q (SymbolTable.mergeImport t i)

/-- Each change that merging makes preserves the property `Q` of tables. -/
structure Merging (Q : SymbolTable → Prop) : Prop where
  lookup : ∀ t name version, Q t → Q (t.lookup name version).2
  define : ∀ t id o relocations, Q t → (t.get id).special = false →
    ((t.get id).isDefined && !(t.get id).isImport) = false →
      Q (t.modify id (SymbolTable.define o relocations))
  contain : ∀ t sub outer offset t', Q t → t.contain sub outer offset = .ok t' → Q t'
  mergeImport : ∀ t i, Q t → Q (SymbolTable.mergeImport t i)

/-! ## Changes that define nothing -/

def Symbol.key (s : Symbol) : String × Nat := (s.name, s.version)

/-- A symbol without its name, its kind, its containment and what is said of its library. -/
def Symbol.core (s : Symbol) : Symbol :=
  { s with
    name := "", version := 0, kind := .undefined, importName := none, importLibrary := none
    outer := none, sub := none, nextSub := none }

/-- Whether an object says what the symbol is. The symbols of shared libraries and of the host
linker are only announced. -/
def Symbol.isSettled (s : Symbol) : Prop :=
  s.kind ≠ .undefined ∧ s.kind ≠ .dynamicImport ∧ s.kind ≠ .hostObject

namespace SymbolTable

/-- All names that are found in `t` are found at the same position in `t'`. -/
def Finds (t t' : SymbolTable) : Prop :=
  ∀ name version id, t.find? name version = some id → t'.find? name version = some id

/-- No name is lost and no definition is made: from `t` to `t'`, a symbol that was there may at most
become an import. -/
structure Quiet (t t' : SymbolTable) : Prop where
  finds : Finds t t'
  size : t.size ≤ t'.size
  key : ∀ id < t.size, (t'.get id).key = (t.get id).key
  core : ∀ id, (t'.get id).core = (t.get id).core
  kind : ∀ id, (t'.get id).kind = (t.get id).kind ∨
    (t'.get id).kind = .dynamicImport ∧
      ((t.get id).kind = .undefined ∨ (t.get id).kind = .hostObject)

namespace Quiet

theorem refl (t : SymbolTable) : Quiet t t :=
  ⟨fun _ _ _ h => h, Nat.le_refl _, fun _ _ => rfl, fun _ => rfl, fun _ => .inl rfl⟩

theorem trans (h : Quiet t t') (h' : Quiet t' t'') : Quiet t t'' := by
  refine ⟨fun name version id hfind => h'.finds name version id (h.finds name version id hfind),
    Nat.le_trans h.size h'.size,
    fun id hid => (h'.key id (Nat.lt_of_lt_of_le hid h.size)).trans (h.key id hid),
    fun id => (h'.core id).trans (h.core id), fun id => ?_⟩
  rcases h'.kind id with hkind' | ⟨himport', hkind'⟩
  · rw [hkind']
    exact h.kind id
  · rcases h.kind id with hkind | ⟨himport, -⟩
    · exact .inr ⟨himport', hkind ▸ hkind'⟩
    · rw [himport] at hkind'
      rcases hkind' with hkind' | hkind' <;> cases hkind'

theorem lookup (t : SymbolTable) (name : String) (version : Nat) :
    Quiet t (t.lookup name version).2 := by
  refine ⟨fun _ _ _ hfind => find?_lookup hfind, ?_, fun id hid => ?_,
    fun id => read_lookup Symbol.core (fun _ _ => rfl) ..,
    fun id => .inl (read_lookup Symbol.kind (fun _ _ => rfl) ..)⟩
  · unfold SymbolTable.lookup
    split
    · exact Nat.le_refl _
    · show t.symbols.size ≤ (t.symbols.push _).size
      rw [Array.size_push]
      exact Nat.le_succ _
  · rw [get_lookup_of_lt name version hid]

theorem lookups (version : String → Nat) (t : SymbolTable) (names : List String) :
    Quiet t (t.lookups version names) :=
  foldl_induction (refl t) fun t₁ name _ ht => ht.trans (.lookup t₁ name _)

theorem modify {f : Symbol → Symbol} (hkey : ∀ s, (f s).key = s.key)
    (hcore : ∀ s, (f s).core = s.core) (hkind : ∀ s, (f s).kind = s.kind ∨
      (f s).kind = .dynamicImport ∧ (s.kind = .undefined ∨ s.kind = .hostObject)) :
    Quiet t (t.modify id f) := by
  have hkeeps : Keeps Symbol.key t (t.modify id f) := .modify (hkey _)
  refine ⟨fun name version j hfind => (Keeps.find? hkeeps name version).trans hfind,
    Nat.le_of_eq hkeeps.1.symm, fun j _ => hkeeps.2 j, (Keeps.modify (hcore _)).2, fun j => ?_⟩
  rw [get_modify]
  split
  · rename_i hj
    rw [hj.1]
    exact hkind (t.get id)
  · exact .inl rfl

theorem contain {sub outer : SymbolId} {offset : Nat} (h : t.contain sub outer offset = .ok t') :
    Quiet t t' := by
  rcases contain_ok h with ⟨-, rfl⟩ | ⟨-, -, -, rfl⟩
  · exact refl t'
  · have houter : Quiet t (t.modify outer fun o => { o with sub := some sub }) :=
      modify (fun _ => rfl) (fun _ => rfl) fun _ => .inl rfl
    exact houter.trans (modify (fun _ => rfl) (fun _ => rfl) fun _ => .inl rfl)

theorem mergeImport (t : SymbolTable) (i : ObjectImport) : Quiet t (t.mergeImport i) := by
  refine (lookup t i.name 0).trans (modify ?_ ?_ ?_)
  · intro s
    split <;> rfl
  · intro s
    split <;> rfl
  · intro s
    split
    · rename_i hkind
      exact .inr ⟨rfl, hkind⟩
    · exact .inl rfl

theorem read {α : Type} {p : Symbol → α} (h : Quiet t t') (hp : ∀ s, p s.core = p s)
    (id : SymbolId) : p (t'.get id) = p (t.get id) := by
  rw [← hp, h.core, hp]

/-- What an object says of a symbol stays. -/
theorem kind_of_isSettled (h : Quiet t t') (hsettled : (t.get id).isSettled) :
    (t'.get id).kind = (t.get id).kind := by
  rcases h.kind id with hkind | ⟨-, hkind | hkind⟩
  · exact hkind
  · exact absurd hkind hsettled.1
  · exact absurd hkind hsettled.2.2

/-- A symbol that has a kind other than an import's had it before. -/
theorem kind_of_ne (h : Quiet t t') (hkind : (t'.get id).kind ≠ .dynamicImport) :
    (t'.get id).kind = (t.get id).kind := by
  rcases h.kind id with hkind' | ⟨himport, -⟩
  · exact hkind'
  · exact absurd himport hkind

end Quiet

end SymbolTable

/-! ## One definition -/

namespace SymbolTable

/-- **Binding.** The relocations that are bound lead to the symbols that their targets name. -/
theorem map_bind (version : String → Nat) (t : SymbolTable)
    (relocations : List (Relocation String)) :
    relocations.map (·.map fun name => (bind version t relocations).2.find? name (version name)) =
      (bind version t relocations).1.map (·.map some) := by
  induction relocations generalizing t with
  | nil => rfl
  | cons r relocations ih =>
    rw [bind]
    split
    rename_i r' t₁ heq
    refine cons_eq_cons.mpr ⟨?_, ih t₁⟩
    have hfinds := (Quiet.lookups version t₁ (relocations.filterMap (·.target?))).finds
    rw [← bind_snd] at hfinds
    split at heq
    · rename_i name hname
      cases heq
      refine (Relocation.map_congr fun name' hname' => ?_).trans (Relocation.map_map _ _ r).symm
      cases hname.symm.trans hname'
      exact hfinds _ _ _ (find?_lookup_self t name (version name))
    · rename_i hnone
      cases heq
      refine (Relocation.map_congr fun name' hname' => ?_).trans (Relocation.map_map _ _ r).symm
      cases hnone.symm.trans hname'

/-- **Accepted definitions.** The name and those of all targets are looked up. Then either the
definition repeats what is known of the symbol, or the symbol has none yet and takes it. -/
theorem mergeSymbol_ok (h : mergeSymbol path version t o = .ok (link, t')) :
    ∃ id t₀ relocations t₁, bind version t₀ o.relocations = (relocations, t₁) ∧
      t₁ = t.lookups version (o.name :: o.relocations.filterMap (·.target?)) ∧
      t₁.find? o.name (version o.name) = some id ∧
      o.relocations.map (·.map fun name => t₁.find? name (version name)) =
        relocations.map (·.map some) ∧
      (t₁.get id).special = false ∧
      (((t₁.get id).isDefined && !(t₁.get id).isImport) = true ∧
          repeats (t₁.get id) o relocations = true ∧ link = none ∧ t' = t₁ ∨
        ((t₁.get id).isDefined && !(t₁.get id).isImport) = false ∧
          (o.outer = none ∧ link = none ∧ t' = t₁.modify id (define o relocations) ∨
            ∃ name offset outer, o.outer = some (name, offset) ∧ link = some ⟨id, outer, offset⟩ ∧
              t' = (t₁.modify id (define o relocations)).lookups version [name] ∧
              t'.find? name (version name) = some outer)) := by
  have hsnd := bind_snd version (t.lookup o.name (version o.name)).2 o.relocations
  have hfind : (bind version (t.lookup o.name (version o.name)).2 o.relocations).2.find? o.name
      (version o.name) = some (t.lookup o.name (version o.name)).1 := by
    rw [hsnd]
    exact (Quiet.lookups ..).finds _ _ _ (find?_lookup_self ..)
  unfold mergeSymbol at h
  dsimp only at h
  refine ⟨_, _, _, _, rfl, hsnd, hfind, map_bind .., ?_⟩
  split at h
  · cases h
  · rename_i hspecial
    refine ⟨Bool.eq_false_iff.mpr hspecial, ?_⟩
    split at h
    · rename_i hdefined
      split at h
      · rename_i hrepeats
        cases h
        exact .inl ⟨hdefined, hrepeats, rfl, rfl⟩
      · cases h
    · rename_i hdefined
      refine .inr ⟨Bool.eq_false_iff.mpr hdefined, ?_⟩
      split at h
      · rename_i name offset houter
        cases h
        exact .inr ⟨name, offset, _, houter, rfl, rfl, find?_lookup_self ..⟩
      · rename_i houter
        cases h
        exact .inl ⟨houter, rfl, rfl⟩

/-! ## Whole objects -/

/-- **Definitions.** They are merged one after the other, and their links are collected. -/
theorem mergeSymbols_induction {Q : List ObjectSymbol → List PendingLink → SymbolTable → Prop}
    (h : Q [] [] t) (step : ∀ done links t link t', ∀ o ∈ os, Q done links t →
      mergeSymbol path version t o = .ok (link, t') → Q (done ++ [o]) (links ++ link.toList) t')
    (hmerge : mergeSymbols path version t os = .ok (links, t')) : Q os links t' := by
  suffices hall : ∀ rest done before t more, (∀ o ∈ rest, o ∈ os) → Q done before t →
      mergeSymbols path version t rest = .ok (more, t') → Q (done ++ rest) (before ++ more) t' by
    exact hall os [] [] t links (fun _ ho => ho) h hmerge
  intro rest
  induction rest with
  | nil =>
    rintro done before t more - hdone ⟨⟩
    rw [append_nil, append_nil]
    exact hdone
  | cons o rest ih =>
    intro done before t more hmem hdone hmerge
    obtain ⟨ho, hmem⟩ := forall_mem_cons.mp hmem
    obtain ⟨⟨link, t₁⟩, hfirst, hmerge⟩ := bind_eq_ok.mp hmerge
    obtain ⟨⟨more₁, t₂⟩, hrest, ⟨⟩⟩ := bind_pure_eq_ok.mp hmerge
    rw [append_cons, ← append_assoc]
    exact ih _ _ _ _ hmem (step _ _ _ _ _ o ho hdone hfirst) hrest

theorem merge_ok {o : Object} (h : t.merge o index = .ok t') :
    ∃ links t₁ t₂, mergeSymbols o.path (versionIn o index) t o.symbols = .ok (links, t₁) ∧
      mergeLinks o.path t₁ links = .ok t₂ ∧ t' = o.imports.foldl mergeImport t₂ := by
  obtain ⟨⟨links, t₁⟩, hsymbols, h⟩ := bind_eq_ok.mp h
  obtain ⟨t₂, hlinks, h⟩ := bind_eq_ok.mp h
  exact ⟨links, t₁, t₂, hsymbols, hlinks, (pure_eq_ok.mp h).symm⟩

end SymbolTable

/-- No definition makes a symbol the linker's, and what is put into another symbol is not. -/
theorem special_mergeSymbol (h : mergeSymbol path version t o = .ok (link, t')) :
    (∀ id, (t'.get id).special = (t.get id).special) ∧
      ∀ l ∈ link, (t'.get l.sub).special = false := by
  obtain ⟨id, t₀, relocations, t₁, -, hlooked, -, -, hspecial, hcases⟩ := mergeSymbol_ok h
  have hlookups (t : SymbolTable) (names : List String) (j : SymbolId) :
      ((t.lookups version names).get j).special = (t.get j).special :=
    (Quiet.lookups version t names).read (p := Symbol.special) (fun _ => rfl) j
  have hdefine (j : SymbolId) :
      ((t₁.modify id (define o relocations)).get j).special = (t.get j).special := by
    rw [(Keeps.modify (p := Symbol.special) rfl).2 j, hlooked, hlookups]
  rcases hcases with ⟨-, -, rfl, rfl⟩ | ⟨-, ⟨-, rfl, rfl⟩ | ⟨name, offset, outer, -, rfl, rfl, -⟩⟩
  · exact ⟨hlooked ▸ hlookups t _, nofun⟩
  · exact ⟨hdefine, nofun⟩
  · refine ⟨fun j => (hlookups _ _ j).trans (hdefine j), ?_⟩
    rintro _ ⟨⟩
    rw [hlookups, (Keeps.modify (p := Symbol.special) rfl).2 id]
    exact hspecial

theorem special_mergeSymbols (h : mergeSymbols path version t os = .ok (links, t')) :
    (∀ id, (t'.get id).special = (t.get id).special) ∧
      ∀ l ∈ links, (t'.get l.sub).special = false := by
  refine mergeSymbols_induction (Q := fun _ links t' =>
    (∀ id, (t'.get id).special = (t.get id).special) ∧
      ∀ l ∈ links, (t'.get l.sub).special = false) ⟨fun _ => rfl, nofun⟩
    (fun _ links t₁ link t₂ o _ ⟨hsame, hlinks⟩ hmerge => ?_) h
  obtain ⟨hsame', hlink⟩ := special_mergeSymbol hmerge
  refine ⟨fun id => (hsame' id).trans (hsame id), fun l hl => ?_⟩
  rcases mem_append.mp hl with hl | hl
  · exact (hsame' l.sub).trans (hlinks l hl)
  · exact hlink l (Option.mem_toList.mp hl)

namespace MergingWith

variable {symbols : List ObjectSymbol} {Q : SymbolTable → Prop}

theorem mergeSymbol (h : MergingWith version symbols Q) (ho : o ∈ symbols) (ht : Q t)
    (hmerge : SymbolTable.mergeSymbol path version t o = .ok (link, t')) : Q t' := by
  obtain ⟨id, t₀, relocations, t₁, hbind, hlooked, -, -, hspecial, hcases⟩ := mergeSymbol_ok hmerge
  have ht₁ : Q t₁ := hlooked ▸ foldl_induction ht fun t name _ => h.lookup t name
  rcases hcases with ⟨-, -, -, rfl⟩ | ⟨hdefined, ⟨-, -, rfl⟩ | ⟨name, offset, outer, -, -, rfl, -⟩⟩
  · exact ht₁
  · exact h.define _ _ _ _ o ho hbind ht₁ hspecial hdefined
  · exact h.lookup _ name (h.define _ id _ _ o ho hbind ht₁ hspecial hdefined)

theorem mergeLinks (h : MergingWith version symbols Q)
    (hlinks : ∀ l ∈ links, (t.get l.sub).special = false) (ht : Q t)
    (hmerge : SymbolTable.mergeLinks path t links = .ok t') : Q t' := by
  refine (foldlM_ok_induction
    (P := fun t' => Q t' ∧ ∀ l ∈ links, (t'.get l.sub).special = false) hmerge ⟨ht, hlinks⟩ ?_).1
  rintro t₁ link t₂ hlink ⟨ht₁, hspecial⟩ hcontain
  have hcontain := mapError_eq_ok.mp hcontain
  refine ⟨h.contain _ _ _ _ _ ht₁ (hspecial link hlink) hcontain, fun l hl => ?_⟩
  exact ((Quiet.contain hcontain).read (p := Symbol.special) (fun _ => rfl) _).trans (hspecial l hl)

theorem merge {o : Object} (h : MergingWith (versionIn o index) o.symbols Q) (ht : Q t)
    (hmerge : t.merge o index = .ok t') : Q t' := by
  obtain ⟨links, t₁, t₂, hsymbols, hlinks, rfl⟩ := merge_ok hmerge
  have ht₁ : Q t₁ := mergeSymbols_induction (Q := fun _ _ => Q) ht
    (fun _ _ _ _ _ o ho ht hmerge => h.mergeSymbol ho ht hmerge) hsymbols
  have ht₂ : Q t₂ := h.mergeLinks (special_mergeSymbols hsymbols).2 ht₁ hlinks
  exact foldl_induction ht₂ fun t i _ ht => h.mergeImport t i ht

end MergingWith

/-- What changes preserve whatever the versions are is preserved by merging any object. -/
theorem Merging.merge {Q : SymbolTable → Prop} (h : Merging Q) {o : Object} (ht : Q t)
    (hmerge : t.merge o index = .ok t') : Q t' := by
  refine MergingWith.merge ⟨fun t name => h.lookup t name _, ?_, ?_, h.mergeImport⟩ ht hmerge
  · exact fun t id relocations _ o _ _ => h.define t id o relocations
  · exact fun t sub outer offset t' ht _ => h.contain t sub outer offset t' ht

theorem bss_ne_undefined : SymbolKind.bss ≠ .undefined := by decide

end ArmLink
