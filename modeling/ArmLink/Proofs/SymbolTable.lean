import ArmLink.Proofs.Except
import ArmLink.SymbolTable.Containment

/-!
# Changes to symbol tables

Most steps of a link change a few fields of some symbols and leave the rest of the table alone.
`Keeps p t t'` says so of whatever `p` reads from a symbol.
-/

namespace ArmLink.SymbolTable

open List

variable {t t' t'' : SymbolTable} {id j : SymbolId} {f : Symbol → Symbol} {P : Symbol → Prop}
  {name : String} {version : Nat}

/-! ## Reading -/

@[simp] theorem size_modify (t : SymbolTable) (id : SymbolId) (f : Symbol → Symbol) :
    (t.modify id f).size = t.size :=
  Array.size_modify

theorem mem_ids : id ∈ t.ids ↔ id < t.size := mem_range

theorem get_eq_getElem (h : id < t.symbols.size) : t.get id = t.symbols[id] := by
  show t.symbols.getD id default = t.symbols[id]
  rw [Array.getD_eq_getD_getElem?, Array.getElem?_eq_getElem h, Option.getD_some]

theorem get_of_size_le (h : t.size ≤ id) : t.get id = default := by
  show t.symbols.getD id default = default
  rw [Array.getD_eq_getD_getElem?, Array.getElem?_eq_none h, Option.getD_none]

theorem lt_size_of_get (h : P (t.get id)) (hdefault : ¬ P default) : id < t.size :=
  Nat.lt_of_not_le fun hle => hdefault (get_of_size_le hle ▸ h)

theorem eq_of_get (hsize : t'.size = t.size) (hget : ∀ id < t.size, t'.get id = t.get id) :
    t' = t := by
  have hsymbols : t'.symbols = t.symbols := by
    refine Array.ext hsize fun i hi hi' => ?_
    rw [← get_eq_getElem hi, ← get_eq_getElem hi', hget i hi']
  calc t' = ⟨t'.symbols⟩ := rfl
    _ = ⟨t.symbols⟩ := by rw [hsymbols]

theorem toList_symbols : t.symbols.toList = t.ids.map t.get := by
  refine ext_getElem (by simp [ids, SymbolTable.size]) fun i hi hi' => ?_
  simp only [ids, getElem_map, getElem_range, Array.getElem_toList]
  exact (get_eq_getElem (by simpa using hi)).symm

theorem forall_get (h : ∀ s ∈ t.symbols.toList, P s) (hdefault : P default) (id : SymbolId) :
    P (t.get id) := by
  by_cases hlt : id < t.symbols.size
  · rw [get_eq_getElem hlt]
    exact h _ (Array.getElem_mem_toList hlt)
  · rw [get_of_size_le (Nat.le_of_not_lt hlt)]
    exact hdefault

theorem get_modify_self (h : id < t.size) : (t.modify id f).get id = f (t.get id) := by
  have h' : id < (t.modify id f).size := by rwa [size_modify]
  rw [get_eq_getElem h, get_eq_getElem h']
  exact Array.getElem_modify_self f h'

theorem get_modify_ne (h : j ≠ id) : (t.modify id f).get j = t.get j := by
  show (t.symbols.modify id f).getD j default = t.symbols.getD j default
  simp only [Array.getD_eq_getD_getElem?, Array.getElem?_modify, if_neg (Ne.symm h)]

theorem get_modify (f : Symbol → Symbol) :
    (t.modify id f).get j = if j = id ∧ id < t.size then f (t.get id) else t.get j := by
  by_cases hj : j = id
  · subst hj
    by_cases hlt : j < t.size
    · rw [get_modify_self hlt, if_pos ⟨rfl, hlt⟩]
    · have hle : t.size ≤ j := Nat.le_of_not_lt hlt
      rw [if_neg fun h => hlt h.2, get_of_size_le hle, get_of_size_le (by rwa [size_modify])]
  · rw [get_modify_ne hj, if_neg fun h => hj h.1]

theorem find?_eq_some (h : t.find? name version = some id) :
    id < t.size ∧ (t.get id).name = name ∧ (t.get id).version = version := by
  obtain ⟨hlt, hp, -⟩ := Array.findIdx?_eq_some_iff_getElem.mp h
  refine ⟨hlt, ?_⟩
  rw [get_eq_getElem hlt]
  simp only [Bool.and_eq_true, decide_eq_true_eq] at hp
  exact ⟨hp.2, hp.1⟩

theorem find?_eq_none (h : t.find? name version = none) (hid : id < t.size) :
    ¬ ((t.get id).name = name ∧ (t.get id).version = version) := by
  rintro ⟨hname, hversion⟩
  have hnot := Array.findIdx?_eq_none_iff.mp h (t.get id) (get_eq_getElem hid ▸ Array.getElem_mem _)
  simp [hname, hversion] at hnot

/-! ## Making symbols -/

theorem get_push {s : Symbol} :
    (⟨t.symbols.push s⟩ : SymbolTable).get j = if j = t.size then s else t.get j := by
  show (t.symbols.push s).getD j default =
    if j = t.symbols.size then s else t.symbols.getD j default
  rw [Array.getD_eq_getD_getElem?, Array.getElem?_push, Array.getD_eq_getD_getElem?]
  split <;> rfl

/-- Looking up a name finds it, or makes a symbol that nothing is known of. -/
theorem get_lookup (t : SymbolTable) (name : String) (version : Nat) (j : SymbolId) :
    (t.lookup name version).2.get j = t.get j ∨
      j = (t.lookup name version).1 ∧ t.get j = default ∧
        (t.lookup name version).2.get j = { name, version } := by
  unfold lookup
  split
  · exact .inl rfl
  · rw [get_push]
    split
    · rename_i heq
      exact .inr ⟨heq, get_of_size_le (Nat.le_of_eq heq.symm), rfl⟩
    · exact .inl rfl

theorem get_lookup_ne (h : j ≠ (t.lookup name version).1) :
    (t.lookup name version).2.get j = t.get j :=
  (get_lookup t name version j).resolve_right fun hsame => h hsame.1

/-- Nothing is known of a symbol before it is made, nor right after. -/
theorem read_lookup {α : Type} (p : Symbol → α)
    (hp : ∀ name version, p { name, version } = p default) (t : SymbolTable) (name : String)
    (version : Nat) (j : SymbolId) : p ((t.lookup name version).2.get j) = p (t.get j) := by
  rcases get_lookup t name version j with hget | ⟨-, hdefault, hget⟩
  · rw [hget]
  · rw [hget, hdefault, hp]

theorem forall_get_lookup (h : ∀ id, P (t.get id)) (hnew : ∀ name version, P { name, version })
    (name : String) (version : Nat) : ∀ id, P ((t.lookup name version).2.get id) := by
  intro id
  rcases get_lookup t name version id with hget | ⟨-, -, hget⟩
  · rw [hget]
    exact h id
  · rw [hget]
    exact hnew name version

/-- A property that all symbols have stays if the symbol that is changed keeps it. -/
theorem forall_get_modify (h : ∀ id, P (t.get id)) (hf : P (t.get id) → P (f (t.get id))) :
    ∀ j, P ((t.modify id f).get j) := by
  intro j
  rw [get_modify]
  split
  · exact hf (h id)
  · exact h j

theorem get_lookup_of_lt (name : String) (version : Nat) (h : j < t.size) :
    (t.lookup name version).2.get j = t.get j := by
  unfold lookup
  split
  · rfl
  · rw [get_push, if_neg (Nat.ne_of_lt h)]

/-- What is found is found again after another name was looked up. -/
theorem find?_lookup {name' : String} {version' : Nat} (h : t.find? name version = some id) :
    (t.lookup name' version').2.find? name version = some id := by
  unfold lookup
  split
  · exact h
  · show (t.symbols.push _).findIdx? _ = _
    rw [Array.findIdx?_push]
    exact (congrArg (Option.or · _) h).trans rfl

theorem find?_lookup_self (t : SymbolTable) (name : String) (version : Nat) :
    (t.lookup name version).2.find? name version = some (t.lookup name version).1 := by
  unfold lookup
  split
  · rename_i id hfind
    exact hfind
  · rename_i hfind
    show (t.symbols.push _).findIdx? _ = _
    rw [Array.findIdx?_push]
    refine (congrArg (Option.or · _) hfind).trans ?_
    simp [size]

/-! ## What a change keeps -/

/-- From `t` to `t'` no symbol comes or goes, and `p` reads the same of each. -/
def Keeps {α : Type} (p : Symbol → α) (t t' : SymbolTable) : Prop :=
  t'.size = t.size ∧ ∀ id, p (t'.get id) = p (t.get id)

namespace Keeps

variable {α β : Type} {p : Symbol → α}

theorem refl (t : SymbolTable) : Keeps p t t := ⟨rfl, fun _ => rfl⟩

theorem trans (h : Keeps p t t') (h' : Keeps p t' t'') : Keeps p t t'' :=
  ⟨h'.1.trans h.1, fun id => (h'.2 id).trans (h.2 id)⟩

theorem map (g : α → β) (h : Keeps p t t') : Keeps (fun s => g (p s)) t t' :=
  ⟨h.1, fun id => congrArg g (h.2 id)⟩

theorem read {p : Symbol → Symbol} (h : Keeps p t t') (q : Symbol → β)
    (hq : ∀ s, q (p s) = q s) : Keeps q t t' :=
  ⟨h.1, fun id => (hq _).symm.trans ((congrArg q (h.2 id)).trans (hq _))⟩

theorem modify (hf : p (f (t.get id)) = p (t.get id)) : Keeps p t (t.modify id f) := by
  refine ⟨size_modify t id f, fun j => ?_⟩
  rw [get_modify]
  split
  · rename_i h
    rw [hf, h.1]
  · rfl

theorem andModify (h : Keeps p t t') (hf : p (f (t'.get id)) = p (t'.get id)) :
    Keeps p t (t'.modify id f) :=
  h.trans (modify hf)

theorem foldl {γ : Type} {step : SymbolTable → γ → SymbolTable} {as : List γ}
    (hstep : ∀ t a, a ∈ as → Keeps p t (step t a)) : Keeps p t (as.foldl step t) :=
  foldl_induction (refl t) fun t' a ha h => h.trans (hstep t' a ha)

theorem ids (h : Keeps p t t') : t'.ids = t.ids := congrArg range h.1

theorem find? (h : Keeps (fun s => (s.name, s.version)) t t') (name : String) (version : Nat) :
    t'.find? name version = t.find? name version := by
  let key : Symbol → String × Nat := fun s => (s.name, s.version)
  have hmap : t'.symbols.map key = t.symbols.map key := by
    apply Array.ext
    · rw [Array.size_map, Array.size_map]
      exact h.1
    · intro i hi hi'
      rw [Array.size_map] at hi hi'
      have hkey : key (t'.get i) = key (t.get i) := h.2 i
      rw [get_eq_getElem hi, get_eq_getElem hi'] at hkey
      rw [Array.getElem_map, Array.getElem_map, hkey]
  let named : String × Nat → Bool := fun k => k.2 = version && k.1 = name
  show t'.symbols.findIdx? (named ∘ key) = t.symbols.findIdx? (named ∘ key)
  rw [← Array.findIdx?_map, ← Array.findIdx?_map, hmap]

theorem finds {p : Symbol → Symbol} (h : Keeps p t t') (name : String) (version : Nat)
    (hp : ∀ s, ((p s).name, (p s).version) = (s.name, s.version)) :
    t'.find? name version = t.find? name version :=
  (h.read (fun s => (s.name, s.version)) hp).find? name version

theorem walkOut (h : Keeps (·.outer) t t') (steps : Nat) (id : SymbolId) (offset : Nat) :
    t'.walkOut steps id offset = t.walkOut steps id offset := by
  induction steps generalizing id offset with
  | zero => rfl
  | succ steps ih =>
    have hid : (t'.get id).outer = (t.get id).outer := h.2 id
    simp only [SymbolTable.walkOut, hid]
    split
    · exact ih _ _
    · rfl

theorem outermost (h : Keeps (·.outer) t t') (id : SymbolId) :
    t'.outermost id = t.outermost id := by
  rw [SymbolTable.outermost, SymbolTable.outermost, h.1, h.walkOut]

end Keeps

/-! ## Containment -/

/-- Where a symbol lies, and which symbols lie within it and beside it. -/
def ties (s : Symbol) : Option Container × Option SymbolId × Option SymbolId :=
  (s.outer, s.sub, s.nextSub)

/-- The table with one symbol put within another one. -/
def putWithin (t : SymbolTable) (sub outer : SymbolId) (offset : Nat) : SymbolTable :=
  (t.modify outer fun o => { o with sub := some sub }).modify sub fun s =>
    { s with outer := some ⟨outer, offset⟩, nextSub := (t.get outer).sub }

theorem keeps_putWithin {α : Type} {p : Symbol → α}
    (hp : ∀ s outer sub nextSub, p { s with outer, sub, nextSub } = p s) (t : SymbolTable)
    (sub outer : SymbolId) (offset : Nat) : Keeps p t (t.putWithin sub outer offset) :=
  Keeps.andModify (.modify (hp _ _ _ _)) (hp _ _ _ _)

/-- **Contained.** Either the link is there already, or the symbol lies within none, would not close
a cycle and ends before its container does, and is put there. -/
theorem contain_ok {sub outer : SymbolId} {offset : Nat} (h : t.contain sub outer offset = .ok t') :
    (t.get sub).outer = some ⟨outer, offset⟩ ∧ t' = t ∨
      (t.get sub).outer = none ∧ t.liesWithin sub t.size outer = false ∧
        ((t.get outer).isDefined = true → offset + (t.get sub).size ≤ (t.get outer).size) ∧
        t' = t.putWithin sub outer offset := by
  simp only [contain] at h
  split at h
  · rename_i existing hexisting
    split at h
    · rename_i hsame
      cases h
      exact .inl ⟨hsame ▸ hexisting, rfl⟩
    · cases h
  · rename_i hnone
    split at h
    · cases h
    · rename_i hcyclic
      split at h
      · cases h
      · rename_i hend
        cases h
        refine .inr ⟨hnone, Bool.eq_false_iff.mpr hcyclic, ?_, rfl⟩
        exact fun hdefined => Nat.le_of_not_lt fun hlt => hend ⟨hlt, hdefined⟩

theorem keeps_contain {α : Type} {p : Symbol → α}
    (hp : ∀ s outer sub nextSub, p { s with outer, sub, nextSub } = p s) {sub outer : SymbolId}
    {offset : Nat} (h : t.contain sub outer offset = .ok t') : Keeps p t t' := by
  rcases contain_ok h with ⟨-, rfl⟩ | ⟨-, -, -, rfl⟩
  · exact .refl t'
  · exact keeps_putWithin hp t sub outer offset

/-! ## Sentinels -/

/-- Each name of a sentinel belongs to the linker. A fresh table has the sentinels, and nothing
takes them away. -/
def HasSentinels (t : SymbolTable) : Prop :=
  ∀ name ∈ sentinels, ∃ id, t.find? name 0 = some id ∧ (t.get id).special = true

instance (t : SymbolTable) : Decidable t.HasSentinels :=
  inferInstanceAs (Decidable (∀ name ∈ sentinels, ∃ id ∈ t.find? name 0, (t.get id).special = true))

theorem find?_eq_toList : t.find? name version =
      t.symbols.toList.findIdx? fun s => s.version = version && s.name = name := by
  rw [find?, findIdx?_toArray]

theorem hasSentinels_initial : HasSentinels initial := by
  decide +kernel

theorem HasSentinels.lookup (h : HasSentinels t) (name : String) (version : Nat) :
    HasSentinels (t.lookup name version).2 := by
  intro sentinel hsentinel
  obtain ⟨id, hfind, hspecial⟩ := h sentinel hsentinel
  refine ⟨id, find?_lookup hfind, ?_⟩
  rw [get_lookup_of_lt _ _ (find?_eq_some hfind).1, hspecial]

theorem HasSentinels.keeps (h : HasSentinels t)
    (hk : Keeps (fun s => (s.name, s.version, s.special)) t t') : HasSentinels t' := by
  intro name hname
  obtain ⟨id, hfind, hspecial⟩ := h name hname
  refine ⟨id, ?_, ?_⟩
  · rw [Keeps.find? (hk.map fun k => (k.1, k.2.1)), hfind]
  · rw [← hspecial]
    exact (hk.map fun k => k.2.2).2 id

theorem HasSentinels.reads {p : Symbol → Symbol} (h : HasSentinels t) (hk : Keeps p t t')
    (hp : ∀ s, ((p s).name, (p s).version, (p s).special) = (s.name, s.version, s.special)) :
    HasSentinels t' :=
  h.keeps (hk.read (fun s => (s.name, s.version, s.special)) hp)

end ArmLink.SymbolTable
