import ArmLink.Proofs.Bystander.Collect

/-!
# How a bystander comes about

A file may define a symbol that no file mentions, itself included. If the symbol is the last that
the file defines, lies within no other and refers to nothing new, then merging the file leaves the
table that it would leave without the definition, and a bystander in it.
-/

namespace ArmLink

open SymbolTable
open List hiding lookup merge

variable {relocations : List (Relocation String)} {links : List PendingLink}
  {version' : String → Nat} {index : Nat}

def ObjectSymbol.names (o : ObjectSymbol) : List String :=
  o.name :: (o.relocations.filterMap (·.target?) ++ (o.outer.map (·.1)).toList)

def Object.names (o : Object) : List String :=
  o.symbols.flatMap (·.names) ++ o.imports.map (·.name)

def Object.add (o : Object) (s : ObjectSymbol) : Object := { o with symbols := o.symbols ++ [s] }

variable {t t' : SymbolTable} {path name : String} {version : String → Nat} {o : ObjectSymbol}
  {os : List ObjectSymbol}

theorem mem_names_of_target {r : Relocation String} (hr : r ∈ o.relocations)
    (htarget : r.target? = some name) : name ∈ o.names :=
  mem_cons_of_mem _ (mem_append_left _ (mem_filterMap.mpr ⟨r, hr, htarget⟩))

theorem mem_names_of_outer {outer : String × Nat} (h : o.outer = some outer) :
    outer.1 ∈ o.names := by
  refine mem_cons_of_mem _ (mem_append_right _ ?_)
  rw [h]
  exact mem_singleton_self outer.1

namespace SymbolTable

/-! ## Names that are not there -/

/-- No symbol of the table has the name. -/
def Avoids (t : SymbolTable) (name : String) : Prop := ∀ id < t.size, (t.get id).name ≠ name

namespace Avoids

variable (h : t.Avoids name)
include h

theorem find?_eq_none (version : Nat) : t.find? name version = none := by
  cases hfind : t.find? name version with
  | none => rfl
  | some id =>
    obtain ⟨hid, hname, -⟩ := find?_eq_some hfind
    exact absurd hname (h id hid)

theorem keeps (hkeeps : Keeps Symbol.name t t') : t'.Avoids name := by
  intro id hid
  rw [hkeeps.2]
  exact h id (hkeeps.1 ▸ hid)

theorem lookup {other : String} (hother : other ≠ name) (version : Nat) :
    (t.lookup other version).2.Avoids name := by
  simp only [SymbolTable.lookup]
  split
  · exact h
  · intro id hid
    rw [get_push]
    split
    · exact hother
    · rename_i hne
      exact h id (Nat.lt_of_le_of_ne (Nat.le_of_lt_succ (by simpa [size] using hid)) hne)

theorem lookups {names : List String} (hnames : name ∉ names) :
    (t.lookups version names).Avoids name := by
  refine foldl_induction (P := fun t : SymbolTable => t.Avoids name) h fun t other hother ht => ?_
  refine ht.lookup ?_ _
  rintro rfl
  exact hnames hother

theorem mergeSymbol {link : Option PendingLink} (hname : name ∉ o.names)
    (hmerge : SymbolTable.mergeSymbol path version t o = .ok (link, t')) : t'.Avoids name := by
  rw [ObjectSymbol.names, ← cons_append, mem_append, not_or] at hname
  obtain ⟨id, -, relocations, t₁, -, hlooked, -, -, -, hcases⟩ := mergeSymbol_ok hmerge
  have h₁ : t₁.Avoids name := hlooked ▸ h.lookups hname.1
  rcases hcases with ⟨-, -, -, rfl⟩ | ⟨-, ⟨-, -, rfl⟩ | ⟨outer, offset, _, houter, -, rfl, -⟩⟩
  · exact h₁
  · exact h₁.keeps (.modify rfl)
  · rw [houter] at hname
    exact (h₁.keeps (.modify rfl)).lookups hname.2

theorem mergeSymbols (hnames : ∀ o ∈ os, name ∉ o.names)
    (hmerge : SymbolTable.mergeSymbols path version t os = .ok (links, t')) : t'.Avoids name :=
  mergeSymbols_induction (Q := fun _ _ t => t.Avoids name) h
    (fun _ _ _ _ _ o ho ht hmerge => ht.mergeSymbol (hnames o ho) hmerge) hmerge

theorem merge {o : Object} (hname : name ∉ o.names) (hmerge : t.merge o index = .ok t') :
    t'.Avoids name := by
  simp only [Object.names, mem_append, mem_flatMap, mem_map, not_or, not_exists,
    not_and] at hname
  obtain ⟨links, t₁, t₂, hsymbols, hlinks, rfl⟩ := merge_ok hmerge
  have h₂ : t₂.Avoids name := by
    refine foldlM_ok_induction (P := fun t : SymbolTable => t.Avoids name) hlinks
      (h.mergeSymbols hname.1 hsymbols) fun t link t' _ ht hlink => ?_
    exact ht.keeps (keeps_contain (fun _ _ _ _ => rfl) (mapError_eq_ok.mp hlink))
  refine foldl_induction (P := fun t : SymbolTable => t.Avoids name) h₂ fun t i hi ht => ?_
  refine (ht.lookup (hname.2 i hi) 0).keeps (.modify ?_)
  generalize SymbolTable.get _ _ = s
  split <;> rfl

omit h

end Avoids

theorem avoids_initial (h : name ∉ sentinels) : initial.Avoids name := by
  intro id hid
  rw [get_eq_getElem hid]
  simp only [initial, getElem_toArray, getElem_map]
  rintro rfl
  exact h (getElem_mem _)

/-! ## Versions -/

theorem bind_congr (h : ∀ r ∈ relocations, r.LeadsTo fun name => version' name = version name)
    (t : SymbolTable) : bind version' t relocations = bind version t relocations := by
  induction relocations generalizing t with
  | nil => rfl
  | cons r relocations ih =>
    obtain ⟨hr, hrest⟩ := forall_mem_cons.mp h
    simp only [bind, ih hrest]
    cases htarget : r.target? with
    | none => rfl
    | some name => simp only [hr name htarget]

theorem mergeSymbols_congr (h : ∀ o ∈ os, ∀ name ∈ o.names, version' name = version name)
    (t : SymbolTable) : mergeSymbols path version' t os = mergeSymbols path version t os := by
  induction os generalizing t with
  | nil => rfl
  | cons o os ih =>
    obtain ⟨ho, hrest⟩ := forall_mem_cons.mp h
    have hfirst : mergeSymbol path version' t o = mergeSymbol path version t o := by
      have hbind (t : SymbolTable) := bind_congr (t := t) fun r hr name hname =>
        ho name (mem_names_of_target hr hname)
      simp only [mergeSymbol, hbind, ho o.name mem_cons_self]
      cases houter : o.outer with
      | none => rfl
      | some outer =>
        simp only [ho outer.1 (mem_names_of_outer houter)]
    simp only [mergeSymbols, hfirst, ih hrest]

theorem mergeSymbols_append (t : SymbolTable) (o : ObjectSymbol) :
    mergeSymbols path version t (os ++ [o]) = (do
      let (links, t) ← mergeSymbols path version t os
      let (link, t) ← mergeSymbol path version t o
      return (links ++ link.toList, t)) := by
  induction os generalizing t with
  | nil =>
    show (mergeSymbol path version t o >>= fun x => pure (x.1.toList ++ [], x.2)) =
      (mergeSymbol path version t o >>= fun x => pure ([] ++ x.1.toList, x.2))
    simp only [append_nil, nil_append]
  | cons o' os ih => simp [mergeSymbols, ih]

/-- Only the version of a name that becomes local may change. -/
theorem versionIn_add {o : Object} {s : ObjectSymbol} (h : name ≠ s.name) (index : Nat) :
    versionIn (o.add s) index name = versionIn o index name := by
  have hlocal : name ∈ localNames (o.add s) ↔ name ∈ localNames o := by
    simp only [localNames, Object.add, filter_append, map_append, mem_append,
      mem_map, mem_filter, mem_singleton, or_iff_left_iff_imp]
    rintro ⟨_, ⟨rfl, -⟩, rfl⟩
    exact absurd rfl h
  simp only [versionIn, contains_iff_mem, hlocal]

end SymbolTable

/-! ## A new symbol -/

/-- A symbol that mentions only symbols that stay where they are. -/
theorem Symbol.rename_eq_self {f : SymbolId → SymbolId} {s : Symbol}
    (htargets : ∀ r ∈ s.relocations, r.LeadsTo fun x => f x = x)
    (houter : ∀ c ∈ s.outer, f c.symbol = c.symbol)
    (hties : ∀ x, s.sub = some x ∨ s.nextSub = some x → f x = x) : s.rename f = s := by
  have hsame {α : Type} {o : Option α} {g : α → α} (hg : ∀ x ∈ o, g x = x) : o.map g = o := by
    cases o with
    | none => rfl
    | some x => rw [Option.map_some, hg x rfl]
  have hrelocations : s.relocations.map (·.map f) = s.relocations := by
    refine (map_congr_left fun r hr => ?_).trans (map_id' _)
    exact (Relocation.map_congr (htargets r hr)).trans r.map_self
  have hcontainer : s.outer.map (·.rename f) = s.outer :=
    hsame fun c hc => congrArg (Container.mk · c.offset) (houter c hc)
  rw [rename, hrelocations, hcontainer, hsame fun x hx => hties x (.inl hx),
    hsame fun x hx => hties x (.inr hx)]

namespace Bystander

/-- The bystander that a definition makes. -/
def ofDefinition (o : ObjectSymbol) (hexported : o.exported = false) (version position : Nat)
    (relocations : List (Relocation SymbolId)) : Bystander where
  position := position
  symbol := define o relocations { name := o.name, version }
  reachable := rfl
  special := rfl
  exported := hexported
  outer := rfl
  dynamicIndex := rfl

theorem modify_push (hcoherent : Coherent links t) (hexported : o.exported = false) (version : Nat)
    (relocations : List (Relocation SymbolId)) :
    (⟨t.symbols.push { name := o.name, version }⟩ : SymbolTable).modify t.size
        (define o relocations) =
      (ofDefinition o hexported version t.size relocations).insert t := by
  have hsize : (⟨t.symbols.push { name := o.name, version }⟩ : SymbolTable).size = t.size + 1 :=
    Array.size_push _
  have hlt : t.size < t.size + 1 := Nat.lt_succ_self _
  generalize hb : ofDefinition o hexported version t.size relocations = b
  have hposition : b.position = t.size := by rw [← hb, ofDefinition]
  have hsymbol : b.symbol = define o relocations { name := o.name, version } := by
    rw [← hb, ofDefinition]
  refine eq_insert ?_ ?_ fun id => ?_
  · rw [size_modify, hsize, size_insert_of_le (Nat.le_of_eq hposition)]
  · rw [get_position, if_pos (Nat.le_of_eq hposition), hposition,
      get_modify_self (by rw [hsize]; exact hlt), get_push, if_pos rfl, hsymbol]
  · by_cases hid : id < t.size
    · -- nothing in the table mentions positions behind its end
      have hstays {x : SymbolId} (hx : x < t.size) : b.shift x = x :=
        shift_of_lt (hposition.symm ▸ hx)
      have hself : (t.get id).rename b.shift = t.get id := by
        refine Symbol.rename_eq_self (fun r hr x hx => hstays (hcoherent.targets id r hr x hx))
          (fun c hc => hstays (hcoherent.forest.lt_size hc)) fun x hx => hstays ?_
        rcases hx with hx | hx
        · exact hcoherent.forest.lt_size_of_mem_parts
            ((hcoherent.forest.spelled id).first_mem hx)
        · exact hcoherent.forest.lt_size_of_nextSub hx
      have hne : id ≠ t.size := Nat.ne_of_lt hid
      rw [shift_of_lt (hposition ▸ hid), get_modify_ne hne, get_push, if_neg hne, hself]
    · have hle : t.size ≤ id := Nat.le_of_not_lt hid
      rw [shift_of_le (hposition ▸ hle), get_of_size_le hle, get_of_size_le]
      · rfl
      · rw [size_modify, hsize]
        exact Nat.succ_le_succ hle

/-- **A new symbol.** A definition that refers to nothing new leaves a bystander. -/
theorem mergeSymbol_new (hcoherent : Coherent links t) (hexported : o.exported = false)
    (houter : o.outer = none) (hnew : t.Avoids o.name)
    (hfound : ∀ r ∈ o.relocations, r.LeadsTo fun name =>
      name = o.name ∨ (t.find? name (version name)).isSome = true) :
    ∃ b : Bystander, b.symbol.name = o.name ∧ b.position = t.size ∧
      mergeSymbol path version t o = .ok (none, b.insert t) := by
  have hlookup : t.lookup o.name (version o.name) =
      (t.size, ⟨t.symbols.push { name := o.name, version := version o.name }⟩) := by
    simp only [lookup, hnew.find?_eq_none]
  have hbind : (bind version (t.lookup o.name (version o.name)).2 o.relocations).2 =
      (t.lookup o.name (version o.name)).2 := by
    refine bind_of_found fun r hr name hname => ?_
    rcases hfound r hr name hname with rfl | hsome
    · rw [find?_lookup_self, Option.isSome_some]
    · obtain ⟨id, hfind⟩ := Option.isSome_iff_exists.mp hsome
      rw [find?_lookup hfind, Option.isSome_some]
  have hget : (⟨t.symbols.push { name := o.name, version := version o.name }⟩ : SymbolTable).get
      t.size = { name := o.name, version := version o.name } := by
    rw [get_push, if_pos rfl]
  rw [hlookup] at hbind
  simp only [mergeSymbol, hlookup, houter]
  generalize bind version _ o.relocations = bound at hbind
  obtain ⟨relocations, _⟩ := bound
  cases hbind
  refine ⟨ofDefinition o hexported (version o.name) t.size relocations, rfl, rfl, ?_⟩
  rw [← modify_push hcoherent, hget]
  rfl

/-- **The file with the definition** leaves what it leaves without it, and a bystander. -/
theorem alike_merge (hcoherent : Coherent links t) {file : Object} (hnew : t.Avoids o.name)
    (hunnamed : o.name ∉ file.names) (hexported : o.exported = false) (houter : o.outer = none)
    (hfound : ∀ pending t₁,
      mergeSymbols file.path (versionIn file index) t file.symbols = .ok (pending, t₁) →
      ∀ r ∈ o.relocations, r.LeadsTo fun name =>
        name = o.name ∨ (t₁.find? name (versionIn file index name)).isSome = true) :
    Alike SameError (fun t₁ t₁' => ∃ b : Bystander, b.symbol.name = o.name ∧ b.Beside t₁ t₁')
      (t.merge file index) (t.merge (file.add o) index) := by
  have hcongr : mergeSymbols file.path (versionIn (file.add o) index) t file.symbols =
      mergeSymbols file.path (versionIn file index) t file.symbols := by
    refine mergeSymbols_congr (fun s hs name hname => versionIn_add ?_ index) t
    rintro rfl
    exact hunnamed (mem_append_left _ (mem_flatMap.mpr ⟨s, hs, hname⟩))
  have hadd : mergeSymbols (file.add o).path (versionIn (file.add o) index) t
      (file.add o).symbols = _ := mergeSymbols_append t o
  have hleaves := hcoherent.mergeSymbols file.path (versionIn file index) file.symbols
  rw [merge, merge, hadd, show (file.add o).path = file.path from rfl, hcongr]
  cases hsymbols : mergeSymbols file.path (versionIn file index) t file.symbols with
  | error failure => exact .error rfl
  | ok merged =>
    obtain ⟨pending, t₁⟩ := merged
    rw [hsymbols] at hleaves
    obtain ⟨h₁, -, hwithin⟩ := hleaves
    have hnew₁ : t₁.Avoids o.name := by
      refine hnew.mergeSymbols (fun s hs hname => hunnamed ?_) hsymbols
      exact mem_append_left _ (mem_flatMap.mpr ⟨s, hs, hname⟩)
    have hfound₁ : ∀ r ∈ o.relocations, r.LeadsTo fun name =>
        name = o.name ∨ (t₁.find? name (versionIn (file.add o) index name)).isSome = true := by
      intro r hr name htarget
      rcases hfound pending t₁ hsymbols r hr name htarget with hown | hsome
      · exact .inl hown
      · by_cases hown : name = o.name
        · exact .inl hown
        · exact .inr ((versionIn_add (o := file) hown index).symm ▸ hsome)
    obtain ⟨b, hname, hposition, hsymbol⟩ := mergeSymbol_new h₁ hexported houter hnew₁ hfound₁
    have hpending : pending.map (·.rename b.shift) = pending := by
      refine (map_congr_left fun l hl => ?_).trans (map_id' _)
      obtain ⟨hsub, houter⟩ := hwithin l hl
      rw [PendingLink.rename, shift_of_lt (hposition ▸ hsub), shift_of_lt (hposition ▸ houter)]
    have hbeside : b.Beside t₁ (b.insert t₁) := ⟨rfl, Nat.le_of_eq hposition, links, h₁⟩
    have hlinks := hbeside.mergeLinks file.path hwithin
    rw [hpending] at hlinks
    show Alike SameError _ (mergeLinks file.path t₁ pending >>= _)
      ((mergeSymbol file.path (versionIn (file.add o) index) t₁ o >>= _) >>= _)
    rw [hsymbol]
    show Alike SameError _ _ (mergeLinks file.path (b.insert t₁) (pending ++ []) >>= _)
    rw [append_nil]
    refine hlinks.bind fun t₂ t₂' h₂ => .ok ⟨b, hname, ?_⟩
    refine h₂.mergeImports fun i hi himport => hunnamed ?_
    exact mem_append_right _ (mem_map.mpr ⟨i, hi, himport.trans hname⟩)

end Bystander

end ArmLink
