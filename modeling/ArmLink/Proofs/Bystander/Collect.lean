import ArmLink.Link
import ArmLink.Proofs.Bystander
import ArmLink.Proofs.SymbolTable.Operations

/-!
# Collecting symbols besides a bystander

The links of containment, imports, string variables and marks are the same whether or not the
bystander is there.
-/

namespace ArmLink

open SymbolTable List

/-- The link, with other positions for its symbols. -/
def SymbolTable.PendingLink.rename (f : SymbolId → SymbolId) (l : PendingLink) : PendingLink :=
  ⟨f l.sub, f l.outer, l.offset⟩

namespace Bystander

variable {b : Bystander} {t t' : SymbolTable} {id : Nat} {links : List PendingLink}

/-- A coherent table without the bystander, and the table with it. -/
structure Beside (b : Bystander) (t t' : SymbolTable) : Prop where
  eq : t' = b.insert t
  le : b.position ≤ t.size
  coherent : ∃ links, Coherent links t

namespace Beside

theorem suits (h : b.Beside t t') : b.Suits t := by
  obtain ⟨-, hle, links, hcoherent⟩ := h
  exact ⟨hle, hcoherent.forest.rooted⟩

/-! ## Containers -/

/-- As many steps as there are symbols see the whole way outward. -/
theorem liesWithin (hle : b.position ≤ t.size) (hcoherent : Coherent links t) (hid : id < t.size)
    (target : Nat) : (b.insert t).liesWithin (b.shift target) (b.insert t).size (b.shift id) =
      t.liesWithin target t.size id := by
  rw [size_insert_of_le hle, liesWithin_insert, Bool.eq_iff_iff, liesWithin_iff,
    hcoherent.forest.liesWithin hid]
  constructor
  · rintro ⟨steps, -, offset, hlies⟩
    exact ⟨steps, offset, hlies⟩
  · intro h
    obtain ⟨steps, hlt, hlies⟩ := liesWithin_iff.mp ((hcoherent.forest.liesWithin hid).mpr h)
    exact ⟨steps, Nat.lt_succ_of_lt hlt, hlies⟩

theorem contain_insert (hle : b.position ≤ t.size) (hcoherent : Coherent links t) {outer : Nat}
    (houter : outer < t.size) (sub offset : Nat) :
    (b.insert t).contain (b.shift sub) (b.shift outer) offset =
      (t.contain sub outer offset).map b.insert := by
  simp only [contain, get_insert, liesWithin hle hcoherent houter, Symbol.rename_outer]
  cases (t.get sub).outer with
  | some existing =>
    have hsame :
        existing.rename b.shift = ⟨b.shift outer, offset⟩ ↔ existing = ⟨outer, offset⟩ := by
      cases existing
      simp [Container.rename]
    have hexisting : (b.insert t).get (existing.rename b.shift).symbol =
        (t.get existing.symbol).rename b.shift := get_insert b t existing.symbol
    simp only [Option.map_some, hsame, hexisting]
    split <;> rfl
  | none =>
    simp only [Option.map_none, Symbol.rename_size, Symbol.isDefined_rename]
    split
    · rfl
    · split
      · rfl
      · rw [modify_insert (f := fun o => { o with sub := some sub }) rfl,
          modify_insert (f := fun s =>
            { s with outer := some ⟨outer, offset⟩, nextSub := (t.get outer).sub }) rfl]
        rfl

variable (h : b.Beside t t')
include h

theorem mergeLinks (path : String) {pending : List PendingLink}
    (hpending : ∀ l ∈ pending, l.Within t) :
    Alike SameError b.Beside (SymbolTable.mergeLinks path t pending)
      (SymbolTable.mergeLinks path t' (pending.map (·.rename b.shift))) := by
  obtain ⟨rfl, hle, links, hcoherent⟩ := h
  induction pending generalizing t links with
  | nil => exact .ok ⟨rfl, hle, links, hcoherent⟩
  | cons l pending ih =>
    obtain ⟨hl, hpending⟩ := forall_mem_cons.mp hpending
    rw [SymbolTable.mergeLinks, map_cons, SymbolTable.mergeLinks, foldlM_cons,
      foldlM_cons, PendingLink.rename, contain_insert hle hcoherent hl.2]
    cases hcontain : t.contain l.sub l.outer l.offset with
    | error reason => exact .error rfl
    | ok t₁ =>
      have hsize := (Quiet.contain hcontain).size
      exact ih (fun l hl => (hpending l hl).mono hsize) (Nat.le_trans hle hsize) _
        (hcoherent.contain hl hcontain)

/-! ## Names -/

theorem get (id : Nat) : t'.get (b.shift id) = (t.get id).rename b.shift := by
  rw [h.eq, get_insert]

theorem lookup {name : String} (hname : name ≠ b.symbol.name) (version : Nat) :
    (t'.lookup name version).1 = b.shift (t.lookup name version).1 ∧
      b.Beside (t.lookup name version).2 (t'.lookup name version).2 := by
  obtain ⟨rfl, hle, links, hcoherent⟩ := h
  rw [lookup_insert hname hle]
  exact ⟨rfl, rfl, Nat.le_trans hle (Quiet.lookup t name version).size, links,
    hcoherent.lookup name version⟩

theorem modify {f g : Symbol → Symbol} (hfg : ∀ s, g (s.rename b.shift) = (f s).rename b.shift)
    (hf : ∀ s, ((f s).key, ties (f s)) = (s.key, ties s))
    (htargets : ∀ s, (f s).relocations = s.relocations ∨ TargetsBelow t.size (f s).relocations) :
    b.Beside (t.modify id f) (t'.modify (b.shift id) g) := by
  obtain ⟨rfl, hle, links, hcoherent⟩ := h
  refine ⟨modify_insert (hfg _), ?_, links, hcoherent.modify hf htargets⟩
  rw [size_modify]
  exact hle

theorem mergeImport {i : ObjectImport} (hname : i.name ≠ b.symbol.name) :
    b.Beside (t.mergeImport i) (t'.mergeImport i) := by
  obtain ⟨hid, hlookup⟩ := h.lookup hname 0
  simp only [SymbolTable.mergeImport, hid]
  refine hlookup.modify (fun s => ?_) (fun s => ?_) fun s => .inl ?_
  · simp only [Symbol.rename_kind]
    split <;> rfl
  · split <;> rfl
  · split <;> rfl

theorem mergeImports {imports : List ObjectImport} (hnames : ∀ i ∈ imports, i.name ≠ b.symbol.name)
    : b.Beside (imports.foldl SymbolTable.mergeImport t)
      (imports.foldl SymbolTable.mergeImport t') := by
  induction imports generalizing t t' with
  | nil => exact h
  | cons i imports ih =>
    obtain ⟨hi, hnames⟩ := forall_mem_cons.mp hnames
    exact ih (h.mergeImport hi) hnames

/-! ## String variables -/

theorem addStringVariable {name : String} (hname : name ≠ b.symbol.name)
    (hbytes : name ++ ".str" ≠ b.symbol.name) (value : String) :
    Alike SameError (fun x y => y.1 = b.shift x.1 ∧ b.Beside x.2 y.2)
      (t.addStringVariable name value) (t'.addStringVariable name value) := by
  obtain ⟨hid, hlookup⟩ := h.lookup hbytes 0
  have hlt := t.lookup_lt_size (name ++ ".str") 0
  simp only [SymbolTable.addStringVariable]
  generalize t.lookup (name ++ ".str") 0 = found at hid hlookup hlt
  generalize t'.lookup (name ++ ".str") 0 = found' at hid hlookup
  obtain ⟨bytesId, t₀⟩ := found
  obtain ⟨_, t₀'⟩ := found'
  subst hid
  rw [hlookup.get, Symbol.rename_special]
  split
  · exact .error rfl
  · generalize hdefine : t₀.modify bytesId _ = t₁
    generalize hdefine' : t₀'.modify (b.shift bytesId) _ = t₁'
    have h₁ : b.Beside t₁ t₁' := by
      subst hdefine hdefine'
      exact hlookup.modify (fun _ => rfl) (fun _ => rfl) fun _ => .inr (forall_mem_nil _)
    obtain ⟨hid, hlookup₁⟩ := h₁.lookup hname 0
    have hlt₁ : bytesId < (t₁.lookup name 0).2.size := by
      refine Nat.lt_of_lt_of_le ?_ (Quiet.lookup t₁ name 0).size
      rw [← hdefine, size_modify]
      exact hlt
    rw [hid, hlookup₁.get, Symbol.rename_special]
    split
    · exact .error rfl
    · refine .ok ⟨rfl, hlookup₁.modify (fun _ => rfl) (fun _ => rfl) fun _ => .inr ?_⟩
      -- the one relocation leads to the bytes
      intro r hr target htarget
      obtain rfl := mem_singleton.mp hr
      cases htarget
      exact hlt₁

theorem addVariables {settings : List (String × String)}
    (hnames : ∀ x ∈ settings, x.1 ≠ b.symbol.name ∧ x.1 ++ ".str" ≠ b.symbol.name) :
    Alike (· = ·) (fun x y => y.1 = x.1.map b.shift ∧ b.Beside x.2 y.2)
      (Link.addVariables settings t) (Link.addVariables settings t') := by
  induction settings generalizing t t' with
  | nil => exact .ok ⟨rfl, h⟩
  | cons x settings ih =>
    obtain ⟨name, value⟩ := x
    obtain ⟨hx, hnames⟩ := forall_mem_cons.mp hnames
    refine ((h.addStringVariable hx.1 hx.2 value).mapError (F := (· = ·)) fun _ _ he => ?_).bind ?_
    · rw [he]
    · rintro ⟨id, t₁⟩ ⟨id', t₁'⟩ ⟨hid, h₁⟩
      refine (ih h₁ hnames).bind ?_
      rintro ⟨ids, t₂⟩ ⟨ids', t₂'⟩ ⟨hids, h₂⟩
      refine .ok ⟨?_, h₂⟩
      rw [map_cons, ← hid, ← hids]

/-! ## Marks -/

/-- What is kept in any case. -/
theorem roots {o : Options} (hentry : o.entry ≠ .symbol b.symbol.name) (settings : List SymbolId) :
    Link.roots o (settings.map b.shift) t' = (Link.roots o settings t).map b.shift := by
  obtain ⟨rfl, hle, -⟩ := h
  simp only [Link.roots, map_append, exported_insert hle]
  cases hcase : o.entry with
  | address address => rfl
  | symbol name =>
    have hname : name ≠ b.symbol.name := fun hname => hentry (hname ▸ hcase)
    simp only [find?_insert hname, Option.toList_map]

end Beside

end Bystander

namespace Bystander

variable {b : Bystander} {t t' : SymbolTable} {id : Nat} {roots : List SymbolId}
  {links : List PendingLink}

theorem spelled_insert {first : Option SymbolId} {parts : List SymbolId}
    (h : Spelled t first parts) : Spelled (b.insert t) (first.map b.shift) (parts.map b.shift) := by
  induction h with
  | nil => exact .nil
  | @cons id rest _ ih =>
    refine .cons ?_
    rw [get_insert, Symbol.rename_nextSub]
    exact ih

/-- The same symbols lie within a symbol, in the same order. -/
theorem subs_insert (h : Forest links t) (hle : b.position ≤ t.size) (id : Nat) :
    (b.insert t).subs (b.shift id) = (t.subs id).map b.shift := by
  rw [h.subs, subs, get_insert, Symbol.rename_sub, size_insert_of_le hle]
  refine (spelled_insert (h.spelled id)).subsFrom ?_
  rw [length_map]
  exact Nat.le_succ_of_le (h.length_parts_le id)

theorem references_insert (h : Forest links t) (hle : b.position ≤ t.size) (id : Nat) :
    (b.insert t).references (b.shift id) = (t.references id).map b.shift := by
  have htargets (s : Symbol) : (s.rename b.shift).relocations.filterMap (·.target?) =
      (s.relocations.filterMap (·.target?)).map b.shift := by
    rw [Symbol.rename_relocations, filterMap_map, map_filterMap]
    exact filterMap_congr fun r _ => r.target?_map b.shift
  have houter (s : Symbol) :
      (s.rename b.shift).outer.map (·.symbol) = (s.outer.map (·.symbol)).map b.shift := by
    rw [Symbol.rename_outer, Option.map_map, Option.map_map]
    rfl
  simp only [references, get_insert, htargets, houter, subs_insert h hle, Option.toList_map,
    map_append]

theorem refers_insert (h : Forest links t) (hle : b.position ≤ t.size) {x : SymbolId} :
    Refers (b.insert t) (b.shift id) x ↔ ∃ y, b.shift y = x ∧ Refers t id y := by
  simp only [← mem_references, references_insert h hle, mem_map, and_comm]

/-- Paths of references avoid the bystander. -/
theorem reaches_insert (h : Forest links t) (hle : b.position ≤ t.size) {x : SymbolId} :
    Reaches (b.insert t) (roots.map b.shift) x ↔ ∃ y, b.shift y = x ∧ Reaches t roots y := by
  constructor
  · rintro ⟨root', hmem, hpath⟩
    induction hpath with
    | refl =>
      obtain ⟨root, hroot, rfl⟩ := mem_map.mp hmem
      exact ⟨root, rfl, root, hroot, .refl⟩
    | tail _ hrefers ih =>
      obtain ⟨y, rfl, root, hroot, hpath⟩ := ih
      obtain ⟨z, rfl, hstep⟩ := (refers_insert h hle).mp hrefers
      exact ⟨z, rfl, root, hroot, hpath.tail hstep⟩
  · rintro ⟨y, rfl, root, hroot, hpath⟩
    refine ⟨b.shift root, mem_map_of_mem hroot, ?_⟩
    exact hpath.lift b.shift fun _ _ hrefers => (refers_insert h hle).mpr ⟨_, rfl, hrefers⟩

theorem get_markReachable (t : SymbolTable) (roots : List SymbolId) (id : SymbolId) :
    (t.markReachable roots).get id =
      { t.get id with reachable := ((t.markReachable roots).get id).reachable } :=
  congrArg (fun s => { s with reachable := ((t.markReachable roots).get id).reachable })
    ((t.keeps_markReachable roots).2 id)

/-- **Marks.** The same symbols are marked, and the bystander is not. -/
theorem markReachable_insert (h : Forest links t) (hle : b.position ≤ t.size)
    (roots : List SymbolId) :
    (b.insert t).markReachable (roots.map b.shift) = b.insert (t.markReachable roots) := by
  have hsize := (t.keeps_markReachable roots).1
  have hsize' := ((b.insert t).keeps_markReachable (roots.map b.shift)).1
  refine eq_insert ?_ ?_ fun id => ?_
  · rw [hsize', size_insert, size_insert, hsize]
  · have hmark : (((b.insert t).markReachable (roots.map b.shift)).get b.position).reachable =
        ((b.insert t).get b.position).reachable := by
      rw [reachable_position, Bool.eq_false_iff, ne_eq, reachable_markReachable_iff,
        reaches_insert h hle, reachable_position]
      · rintro (hmark | ⟨y, hy, -⟩)
        · cases hmark
        · exact b.shift_ne_position y hy
      · rw [size_insert_of_le hle]
        exact Nat.lt_succ_of_le hle
    rw [get_markReachable, hmark, get_position, get_position, hsize]
  · have hmark : (((b.insert t).markReachable (roots.map b.shift)).get (b.shift id)).reachable =
        ((t.markReachable roots).get id).reachable := by
      by_cases hid : id < t.size
      · rw [Bool.eq_iff_iff, reachable_markReachable_iff _ _ (shift_lt_size.mpr hid),
          reachable_markReachable_iff _ _ hid, reaches_insert h hle, get_insert,
          Symbol.rename_reachable]
        simp only [shift_inj, exists_eq_left]
      · have hid' : ¬ b.shift id < (b.insert t).size := shift_lt_size.not.mpr hid
        rw [get_of_size_le (by rw [hsize']; exact Nat.le_of_not_lt hid'),
          get_of_size_le (by rw [hsize]; exact Nat.le_of_not_lt hid)]
    rw [get_markReachable, hmark, get_insert, get_markReachable t]
    rfl

theorem Beside.markReachable (h : b.Beside t t') (roots : List SymbolId) :
    b.Beside (t.markReachable roots) (t'.markReachable (roots.map b.shift)) := by
  obtain ⟨rfl, hle, links, hcoherent⟩ := h
  have hkeeps := t.keeps_markReachable roots
  refine ⟨markReachable_insert hcoherent.forest hle roots, ?_, links, ?_⟩
  · rw [hkeeps.1]
    exact hle
  · exact hcoherent.congr (hkeeps.map fun s => (s.key, ties s))
      fun id => .inl ((hkeeps.map Symbol.relocations).2 id)

end Bystander

end ArmLink
