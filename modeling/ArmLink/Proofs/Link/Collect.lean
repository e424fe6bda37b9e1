import ArmLink.Link
import ArmLink.Proofs.SymbolTable.Reach
import ArmLink.Proofs.SymbolTable.Variables

/-!
# What is collected

Objects are merged into one table, string variables are set, and what the output needs is marked.
All that is done by a handful of changes to the table, so that what each of them preserves holds of
whatever is collected.
-/

namespace ArmLink

open SymbolTable

variable {t t' : SymbolTable} {Q : SymbolTable → Prop} {P : Symbol → Prop} {o : Options}
  {objects : List Object} {A : SymbolKind → List (Relocation SymbolId) → Prop}

/-- Whatever happens to these objects before symbols are marked preserves the property `Q` of
tables. -/
structure Gathering (objects : List Object) (Q : SymbolTable → Prop) : Prop where
  merge : ∀ t, ∀ o ∈ objects, ∀ index t', Q t → t.merge o index = .ok t' → Q t'
  addStringVariable : ∀ t name value id t', Q t →
    t.addStringVariable name value = .ok (id, t') → Q t'

namespace Gathering

theorem and {R : SymbolTable → Prop} (h : Gathering objects Q) (h' : Gathering objects R) :
    Gathering objects fun t => Q t ∧ R t :=
  ⟨fun t o ho index t' ht hmerge =>
      ⟨h.merge t o ho index t' ht.1 hmerge, h'.merge t o ho index t' ht.2 hmerge⟩,
    fun t name value id t' ht hset =>
      ⟨h.addStringVariable t name value id t' ht.1 hset,
        h'.addStringVariable t name value id t' ht.2 hset⟩⟩

variable (h : Gathering objects Q)

include h

theorem mergeAll {rest : List Object} {index : Nat} (hrest : ∀ o ∈ rest, o ∈ objects) (ht : Q t)
    (hmerge : (Link.mergeAll (m := Id) .silent rest index t).run = .ok t') : Q t' := by
  induction rest generalizing t index with
  | nil =>
    cases hmerge
    exact ht
  | cons o rest ih =>
    obtain ⟨ho, hrest⟩ := List.forall_mem_cons.mp hrest
    obtain ⟨t₁, hfirst, hmerge⟩ := run_bind_eq_ok.mp hmerge
    exact ih hrest (h.merge t o ho index t₁ ht (mapError_eq_ok.mp hfirst)) hmerge

theorem addVariables {settings : List (String × String)} {ids : List SymbolId} (ht : Q t)
    (hset : Link.addVariables settings t = .ok (ids, t')) : Q t' := by
  induction settings generalizing t ids with
  | nil =>
    cases hset
    exact ht
  | cons setting settings ih =>
    obtain ⟨⟨id, t₁⟩, hfirst, hset⟩ := bind_eq_ok.mp hset
    obtain ⟨⟨ids₁, t₂⟩, hrest, ⟨⟩⟩ := bind_pure_eq_ok.mp hset
    exact ih (h.addStringVariable _ _ _ _ _ ht (mapError_eq_ok.mp hfirst)) hrest

/-- A collected table is a gathered one in which what the output needs was marked. -/
theorem collect (hinitial : Q .initial) (hcollect : Link.collect o objects = .ok t) :
    ∃ settings t₀, Q t₀ ∧ t = t₀.markReachable (Link.roots o settings t₀) := by
  obtain ⟨t₁, hmerge, hcollect⟩ := run_bind_eq_ok.mp hcollect
  obtain ⟨⟨settings, t₂⟩, hset, hcollect⟩ := run_bind_eq_ok.mp hcollect
  cases hcollect
  exact ⟨settings, t₂, h.addVariables (h.mergeAll (fun _ ho => ho) hinitial hmerge) hset, rfl⟩

end Gathering

/-! ## One symbol at a time -/

/-- Each change that is made to a symbol before symbols are marked preserves the property `P` of
symbols, if `A` holds of the kind and the relocations that objects and variables give to it. -/
structure Gathers (A : SymbolKind → List (Relocation SymbolId) → Prop) (P : Symbol → Prop) :
    Prop where
  new : ∀ name version, P { name, version }
  /-- contents, which only symbols that are not the linker's get -/
  write : ∀ s kind exported size alignment value data relocations importName importLibrary, P s →
    s.special = false → A kind relocations →
      P { s with
        kind, exported, size, alignment, value, data, relocations, importName, importLibrary }
  /-- a place among containers and parts; the linker's own symbols do not become parts -/
  place : ∀ s outer sub nextSub, P s → (s.special = true → outer = s.outer) →
    P { s with outer, sub, nextSub }
  provide : ∀ s importName importLibrary, P s →
    P { s with kind := .dynamicImport, importName, importLibrary }

namespace Gathers

theorem mergingWith (h : Gathers A P) {version : String → Nat} {symbols : List ObjectSymbol}
    (hsymbols : ∀ o ∈ symbols, ∀ t, A o.kind (bind version t o.relocations).1) :
    MergingWith version symbols fun t => ∀ id, P (t.get id) where
  lookup t name ht := forall_get_lookup ht h.new name _
  define t id relocations t₀ o ho hbind ht hspecial _ := by
    have hasked := hsymbols o ho t₀
    rw [hbind] at hasked
    exact forall_get_modify ht fun hs => h.write _ _ _ _ _ _ _ _ _ _ hs hspecial hasked
  contain t sub outer offset t' ht hspecial hcontain := by
    rcases contain_ok hcontain with ⟨-, rfl⟩ | ⟨-, -, -, rfl⟩
    · exact ht
    · -- the container names its latest part, and the part learns where it lies
      have houter : ∀ id, P ((t.modify outer fun o => { o with sub := some sub }).get id) :=
        forall_get_modify ht fun hs => h.place _ _ _ _ hs fun _ => rfl
      have hkeeps : Keeps Symbol.special t (t.modify outer fun o => { o with sub := some sub }) :=
        .modify rfl
      refine forall_get_modify houter fun hs => h.place _ _ _ _ hs fun hown => ?_
      rw [hkeeps.2 sub, hspecial] at hown
      cases hown
  mergeImport t i ht := by
    simp only [mergeImport]
    refine forall_get_modify (forall_get_lookup ht h.new i.name 0) fun hs => ?_
    split
    · exact h.provide _ _ _ hs
    · exact hs

/-- **Gather.** What the changes to each symbol preserve, they preserve of all symbols. -/
theorem gathering (h : Gathers A P) (hobjects : ∀ ob ∈ objects, ∀ o ∈ ob.symbols, ∀ version t,
      A o.kind (bind version t o.relocations).1)
    (hbytes : A .readOnlyData [])
    (hpair : ∀ target, A .data [.pending 0 4 .absolute (some target) 0]) :
    Gathering objects fun t => ∀ id, P (t.get id) where
  merge t ob hob index t' ht hmerge :=
    (h.mergingWith fun o ho => hobjects ob hob o ho _).merge ht hmerge
  addStringVariable t name value id t' ht hset := by
    refine addStringVariable_induction (Q := fun t => ∀ id, P (t.get id)) hset ht
      (fun _ name ht => forall_get_lookup ht h.new name 0) ?_
    intro t id kind data size relocations ht hspecial hset
    refine forall_get_modify ht fun hs => h.write _ _ _ _ _ _ _ _ _ _ hs hspecial ?_
    rcases hset with ⟨rfl, rfl⟩ | ⟨rfl, target, rfl⟩
    · exact hbytes
    · exact hpair target

/-- All objects, and all variables, say what a symbol is. -/
theorem gathering_defined (h : Gathers (fun kind _ => kind ≠ .undefined) P) :
    Gathering objects fun t => ∀ id, P (t.get id) :=
  h.gathering (fun _ _ o _ _ _ => o.kind_ne_undefined) nofun fun _ => nofun

/-- **Collect.** What is preserved before symbols are marked and by a mark holds of every collected
symbol. -/
theorem collect (h : Gathers (fun kind _ => kind ≠ .undefined) P)
    (hmark : ∀ s, P s → P { s with reachable := true }) (hinitial : ∀ id, P (initial.get id))
    (hcollect : Link.collect o objects = .ok t) (id : SymbolId) : P (t.get id) := by
  obtain ⟨settings, t₀, ht₀, rfl⟩ := h.gathering_defined.collect hinitial hcollect
  exact forall_get_markReachable ht₀ hmark _ id

end Gathers

/-! ## Symbols before the tables of the dynamic loader are made -/

/-- No stub was made for the symbol, it is needed but has no place of its own if it is the linker's,
and nothing is known of its contents if nothing defines it. -/
structure Symbol.Unlinked (s : Symbol) : Prop where
  pltOffset : s.pltOffset = none
  special : s.special = true → s.kind.isPlaced = false
  data : s.kind = .undefined → s.data = []
  reachable : s.special = true → s.reachable = true

theorem gathers_unlinked : Gathers (fun kind _ => kind ≠ .undefined) Symbol.Unlinked where
  new _ _ := ⟨rfl, nofun, fun _ => rfl, nofun⟩
  write s _ _ _ _ _ _ _ _ _ hs hspecial hkind := by
    have hnot : ¬ s.special = true := Bool.eq_false_iff.mp hspecial
    exact ⟨hs.pltOffset, fun hown => absurd hown hnot, fun hnone => absurd hnone hkind,
      fun hown => absurd hown hnot⟩
  place _ _ _ _ hs _ := ⟨hs.pltOffset, hs.special, hs.data, hs.reachable⟩
  provide _ _ _ hs := ⟨hs.pltOffset, fun _ => rfl, nofun, hs.reachable⟩

theorem gathering_sentinels : Gathering objects HasSentinels where
  merge _ _ _ _ _ ht hmerge := by
    have hmerging : Merging HasSentinels :=
      ⟨fun _ name version ht => ht.lookup name version,
        fun _ _ _ _ ht _ _ => ht.keeps (.modify rfl),
        fun _ _ _ _ _ ht hcontain => ht.keeps (keeps_contain (fun _ _ _ _ => rfl) hcontain),
        fun t i ht => (ht.lookup i.name 0).keeps (keeps_mergeImport (fun _ _ _ _ => rfl) t i)⟩
    exact hmerging.merge ht hmerge
  addStringVariable _ _ _ _ _ ht hset :=
    addStringVariable_induction hset ht (fun _ name ht => ht.lookup name 0)
      fun _ _ _ _ _ _ ht _ _ => ht.keeps (.modify rfl)

/-- The sentinels are there, and all symbols are unlinked. -/
structure SymbolTable.Collected (t : SymbolTable) : Prop where
  sentinels : t.HasSentinels
  unlinked : ∀ id, (t.get id).Unlinked

theorem SymbolTable.unlinked_initial (id : SymbolId) : (initial.get id).Unlinked := by
  have hget : initial.get id = default ∨ ∃ name, initial.get id =
      { name, version := 0, special := true, reachable := true } := by
    simp only [SymbolTable.get, initial, Array.getD_eq_getD_getElem?, List.getElem?_toArray,
      List.getElem?_map]
    cases sentinels[id]? with
    | none => exact .inl rfl
    | some name => exact .inr ⟨name, rfl⟩
  rcases hget with hget | ⟨name, hget⟩
  · rw [hget]
    exact ⟨rfl, fun _ => rfl, fun _ => rfl, fun h => absurd h Bool.false_ne_true⟩
  · rw [hget]
    exact ⟨rfl, fun _ => rfl, fun _ => rfl, fun _ => rfl⟩

/-- **Collected.** What is collected has the sentinels, and all of its symbols are unlinked. -/
theorem collected (h : Link.collect o objects = .ok t) : t.Collected := by
  refine ⟨?_, gathers_unlinked.collect
    (fun _ hs => ⟨hs.pltOffset, hs.special, hs.data, fun _ => rfl⟩) unlinked_initial h⟩
  obtain ⟨settings, t₀, ht₀, rfl⟩ := gathering_sentinels.collect hasSentinels_initial h
  exact ht₀.reads (t₀.keeps_markReachable _) fun _ => rfl

end ArmLink
