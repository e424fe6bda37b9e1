import ArmLink.Proofs.SymbolTable.Forest
import ArmLink.Proofs.SymbolTable.Merge
import ArmLink.Proofs.SymbolTable.Reach

/-!
# Symbol tables under all operations

A symbol table is made by a handful of operations, of which some may fail half-way and leave what
they have done so far. Whatever is done, and whether or not it succeeds, the links of containment
form a forest and no two symbols share a name.
-/

namespace ArmLink

open List

variable {l : PendingLink} {ops : List Operation}

/-! ## Operations that may fail half-way -/

/-- A success has the property `A`, and what a failure leaves has the property `E`. -/
def Leaves {ε σ α : Type} (E : σ → Prop) (A : α → Prop) : Except (Failure ε σ) α → Prop
  | .ok a => A a
  | .error failure => E failure.state

theorem Leaves.bind {ε σ α β : Type} {E : σ → Prop} {A : α → Prop} {B : β → Prop}
    {x : Except (Failure ε σ) α} {f : α → Except (Failure ε σ) β} (hx : Leaves E A x)
    (hf : ∀ a, A a → Leaves E B (f a)) : Leaves E B (x >>= f) := by
  cases x with
  | error failure => exact hx
  | ok a => exact hf a hx

theorem Leaves.of_ok {ε σ α : Type} {E : σ → Prop} {A : α → Prop} {x : Except (Failure ε σ) α}
    {a : α} (h : Leaves E A x) (hx : x = .ok a) : A a := by
  rw [hx] at h
  exact h

namespace SymbolTable

variable {t t' : SymbolTable} {id : SymbolId}

/-- What an operation leaves, whether or not it succeeds. -/
def left {ε α : Type} (table : α → SymbolTable) : Except (Failure ε SymbolTable) α → SymbolTable
  | .ok a => table a
  | .error failure => failure.state

theorem Leaves.left {ε α : Type} {P : SymbolTable → Prop} {table : α → SymbolTable}
    {x : Except (Failure ε SymbolTable) α} (h : Leaves P (fun a => P (table a)) x) :
    P (left table x) := by
  cases x with
  | error failure => exact h
  | ok a => exact h

/-- The links that are made, one after the other, until one is refused. A link that is there already
is not made again. -/
def linksMade (t : SymbolTable) : List PendingLink → List PendingLink
  | [] => []
  | l :: rest =>
    match t.contain l.sub l.outer l.offset with
    | .ok t' => if (t.get l.sub).outer = none then l :: t'.linksMade rest else t'.linksMade rest
    | .error _ => []

/-- What may be done to a symbol table. -/
inductive Operation where
  | lookup (name : String) (version : Nat)
  | merge (o : Object) (index : Nat)
  | contain (sub outer : SymbolId) (offset : Nat)
  | setVariable (name value : String)
  | defineSpecial (name : String) (kind : SymbolKind) (value : Nat)
  | markReachable (roots : List SymbolId)

namespace Operation

def perform (t : SymbolTable) : Operation → SymbolTable
  | lookup name version => (t.lookup name version).2
  | merge o index => left (·) (t.merge o index)
  | contain sub outer offset =>
    match t.contain sub outer offset with
    | .ok t' => t'
    | .error _ => t
  | setVariable name value => left (·.2) (t.addStringVariable name value)
  | defineSpecial name kind value => (t.defineSpecial name kind value).2
  | markReachable roots => t.markReachable roots

def links (t : SymbolTable) : Operation → List PendingLink
  | merge o index =>
    match mergeSymbols o.path (versionIn o index) t o.symbols with
    | .ok (pending, t') => t'.linksMade pending
    | .error _ => []
  | contain sub outer offset => t.linksMade [⟨sub, outer, offset⟩]
  | lookup .. | setVariable .. | defineSpecial .. | markReachable .. => []

/-- The operation speaks of symbols that are there. -/
def Permitted (t : SymbolTable) : Operation → Prop
  | contain sub outer _ => sub < t.size ∧ outer < t.size
  | markReachable roots => ∀ id ∈ roots, id < t.size
  | lookup .. | merge .. | setVariable .. | defineSpecial .. => True

instance decidablePermitted (t : SymbolTable) : (op : Operation) → Decidable (op.Permitted t)
  | contain sub outer _ => inferInstanceAs (Decidable (sub < t.size ∧ outer < t.size))
  | markReachable roots => inferInstanceAs (Decidable (∀ id ∈ roots, id < t.size))
  | lookup .. | merge .. | setVariable .. | defineSpecial .. => isTrue trivial

end Operation

/-- The table that a number of operations leave. -/
def performAll (t : SymbolTable) : List Operation → SymbolTable
  | [] => t
  | op :: ops => (op.perform t).performAll ops

/-- The links that a number of operations make, in order. -/
def linksOf (t : SymbolTable) : List Operation → List PendingLink
  | [] => []
  | op :: ops => op.links t ++ (op.perform t).linksOf ops

/-- Each operation speaks of symbols that are there by then. -/
def Permitted (t : SymbolTable) : List Operation → Prop
  | [] => True
  | op :: ops => op.Permitted t ∧ (op.perform t).Permitted ops

instance decidablePermitted : (t : SymbolTable) → (ops : List Operation) →
    Decidable (t.Permitted ops)
  | _, [] => isTrue trivial
  | t, op :: ops =>
    have := decidablePermitted (op.perform t) ops
    inferInstanceAs (Decidable (op.Permitted t ∧ (op.perform t).Permitted ops))

/-! ## Coherence -/

/-- The targets of the relocations are positions below a bound. -/
def TargetsBelow (bound : Nat) (relocations : List (Relocation SymbolId)) : Prop :=
  ∀ r ∈ relocations, r.LeadsTo (· < bound)

/-- The links that were made form a forest, no two symbols share a name, and relocations lead to
symbols that are there. -/
structure Coherent (links : List PendingLink) (t : SymbolTable) : Prop where
  forest : Forest links t
  distinct : ∀ i < t.size, ∀ j < t.size, (t.get i).key = (t.get j).key → i = j
  targets : ∀ id, TargetsBelow t.size (t.get id).relocations

theorem coherent_initial : Coherent [] initial := by
  have hnone (id : SymbolId) : (initial.get id).outer = none :=
    forall_get (P := fun s => s.outer = none) (by decide) rfl id
  refine ⟨⟨fun id => hnone id, fun id => ?_, ?_, nodup_nil, nofun, ?_⟩, by decide +kernel, ?_⟩
  · rw [forall_get (t := initial) (P := fun s => s.sub = none) (by decide) rfl id]
    exact .nil
  · exact forall_get (P := fun s => s.outer = none → s.nextSub = none) (by decide) fun _ => rfl
  · exact fun id => ⟨0, id, 0, .here id, hnone id⟩
  · intro id
    rw [forall_get (t := initial) (P := fun s => s.relocations = []) (by decide) rfl id]
    exact nofun

variable {links : List PendingLink}

namespace Coherent

variable (h : Coherent links t)
include h

theorem find?_eq_some_iff {name : String} {version : Nat} : t.find? name version = some id ↔
      id < t.size ∧ (t.get id).name = name ∧ (t.get id).version = version := by
  refine ⟨find?_eq_some, fun ⟨hid, hname, hversion⟩ => ?_⟩
  cases hfind : t.find? name version with
  | none => exact absurd ⟨hname, hversion⟩ (find?_eq_none hfind hid)
  | some j =>
    obtain ⟨hj, hname', hversion'⟩ := find?_eq_some hfind
    have hkey : (t.get j).key = (t.get id).key := by
      rw [Symbol.key, Symbol.key, hname, hname', hversion, hversion']
    rw [h.distinct j hj id hid hkey]

theorem outer_congr (h' : Coherent links t') (id : SymbolId) :
    (t'.get id).outer = (t.get id).outer :=
  (h'.forest.outer id).trans (h.forest.outer id).symm

theorem lookup (name : String) (version : Nat) : Coherent links (t.lookup name version).2 := by
  have hsize := (Quiet.lookup t name version).size
  refine ⟨h.forest.congr hsize fun id => read_lookup ties (fun _ _ => rfl) .., ?_, fun id => ?_⟩
  · -- the symbol that is made has a name that was not there
    simp only [SymbolTable.lookup]
    split
    · exact h.distinct
    · rename_i hnew
      have hfresh {j : SymbolId} (hj : j < t.size) : (t.get j).key ≠ (name, version) := by
        intro hkey
        exact find?_eq_none hnew hj ⟨congrArg Prod.fst hkey, congrArg Prod.snd hkey⟩
      have hlast {j : SymbolId} (hj : j < t.symbols.size + 1) (hne : j ≠ t.size) : j < t.size :=
        Nat.lt_of_le_of_ne (Nat.le_of_lt_succ hj) hne
      intro i hi j hj hkey
      simp only [SymbolTable.size, Array.size_push] at hi hj
      rw [get_push, get_push] at hkey
      split at hkey <;> split at hkey <;> rename_i hi' hj'
      · exact hi'.trans hj'.symm
      · exact absurd hkey.symm (hfresh (hlast hj hj'))
      · exact absurd hkey (hfresh (hlast hi hi'))
      · exact h.distinct i (hlast hi hi') j (hlast hj hj') hkey
  · intro r hr target htarget
    rw [read_lookup Symbol.relocations (fun _ _ => rfl) ..] at hr
    exact Nat.lt_of_lt_of_le (h.targets id r hr target htarget) hsize

/-- What keeps names, containers and parts stays coherent if the targets it sets are there. -/
theorem congr (hkeeps : Keeps (fun s => (s.key, ties s)) t t')
    (htargets : ∀ id, (t'.get id).relocations = (t.get id).relocations ∨
      TargetsBelow t.size (t'.get id).relocations) :
    Coherent links t' := by
  have hsize := hkeeps.1
  refine ⟨h.forest.congr (Nat.le_of_eq hsize.symm) (hkeeps.map (·.2)).2,
    fun i hi j hj hkey => ?_, fun id => ?_⟩
  · rw [hsize] at hi hj
    have hkeys (id : SymbolId) : (t'.get id).key = (t.get id).key := congrArg Prod.fst (hkeeps.2 id)
    rw [hkeys, hkeys] at hkey
    exact h.distinct i hi j hj hkey
  · rw [hsize]
    rcases htargets id with hsame | hbelow
    · rw [hsame]
      exact h.targets id
    · exact hbelow

theorem modify {f : Symbol → Symbol} (hf : ∀ s, ((f s).key, ties (f s)) = (s.key, ties s))
    (htargets : ∀ s, (f s).relocations = s.relocations ∨ TargetsBelow t.size (f s).relocations) :
    Coherent links (t.modify id f) := by
  refine h.congr (.modify (hf _)) fun j => ?_
  rw [get_modify]
  split
  · rename_i hj
    rw [hj.1]
    exact htargets _
  · exact .inl rfl

theorem putWithin {sub outer : SymbolId} {offset : Nat} (hsub : sub < t.size)
    (houter : outer < t.size) (hnone : (t.get sub).outer = none)
    (hcyclic : t.liesWithin sub t.size outer = false) :
    Coherent (links ++ [⟨sub, outer, offset⟩]) (t.putWithin sub outer offset) := by
  have hkey := keeps_putWithin (p := Symbol.key) (fun _ _ _ _ => rfl) t sub outer offset
  have hrelocations :=
    keeps_putWithin (p := Symbol.relocations) (fun _ _ _ _ => rfl) t sub outer offset
  refine ⟨h.forest.putWithin hsub houter hnone hcyclic, fun i hi j hj hsame => ?_, fun id => ?_⟩
  · rw [size_putWithin] at hi hj
    rw [hkey.2, hkey.2] at hsame
    exact h.distinct i hi j hj hsame
  · rw [size_putWithin, hrelocations.2]
    exact h.targets id

end Coherent

/-! ## Merging -/

theorem lookup_lt_size (t : SymbolTable) (name : String) (version : Nat) :
    (t.lookup name version).1 < (t.lookup name version).2.size :=
  (find?_eq_some (find?_lookup_self t name version)).1

theorem targetsBelow_bind (version : String → Nat) (t : SymbolTable)
    (relocations : List (Relocation String)) :
    TargetsBelow (bind version t relocations).2.size (bind version t relocations).1 := by
  intro r hr target htarget
  obtain ⟨name, hfind⟩ := Relocation.exists_of_map_eq (map_bind version t relocations) hr htarget
  exact (find?_eq_some hfind).1

/-- A link between symbols that are there. -/
def PendingLink.Within (l : PendingLink) (t : SymbolTable) : Prop :=
  l.sub < t.size ∧ l.outer < t.size

theorem PendingLink.Within.mono (h : l.Within t) (hsize : t.size ≤ t'.size) : l.Within t' :=
  ⟨Nat.lt_of_lt_of_le h.1 hsize, Nat.lt_of_lt_of_le h.2 hsize⟩

namespace Coherent

variable (h : Coherent links t)
include h

/-- One definition of an object, accepted or not. -/
theorem mergeSymbol (path : String) (version : String → Nat) (o : ObjectSymbol) :
    Leaves (Coherent links)
      (fun r => Coherent links r.2 ∧ t.size ≤ r.2.size ∧ ∀ l ∈ r.1, l.Within r.2)
      (SymbolTable.mergeSymbol path version t o) := by
  have hlookup := h.lookup o.name (version o.name)
  have hid := t.lookup_lt_size o.name (version o.name)
  have hsize := (Quiet.lookup t o.name (version o.name)).size
  simp only [SymbolTable.mergeSymbol]
  generalize t.lookup o.name (version o.name) = found at hlookup hid hsize
  obtain ⟨id, t₀⟩ := found
  have hbind := bind_snd version t₀ o.relocations
  have htargets := targetsBelow_bind version t₀ o.relocations
  generalize SymbolTable.bind version t₀ o.relocations = bound at hbind htargets
  obtain ⟨relocations, t₁⟩ := bound
  dsimp only at hid hsize hbind htargets
  have hsize₁ : t₀.size ≤ t₁.size := hbind ▸ (Quiet.lookups ..).size
  have hbind : Coherent links t₁ :=
    hbind ▸ foldl_induction hlookup fun _ name _ ht => ht.lookup name _
  have hgrown : t.size ≤ t₁.size := Nat.le_trans hsize hsize₁
  split
  · exact hbind
  · split
    · split
      · exact ⟨hbind, hgrown, nofun⟩
      · exact hbind
    · have hdefined : Coherent links (t₁.modify id (define o relocations)) :=
        hbind.modify (fun _ => rfl) fun _ => .inr htargets
      split
      · rename_i name offset _
        have hsize₂ := (Quiet.lookup (t₁.modify id (define o relocations)) name (version name)).size
        rw [size_modify] at hsize₂
        refine ⟨hdefined.lookup name (version name), Nat.le_trans hgrown hsize₂, fun l hl => ?_⟩
        obtain rfl := Option.mem_some.mp hl
        exact ⟨Nat.lt_of_lt_of_le hid (Nat.le_trans hsize₁ hsize₂), lookup_lt_size _ _ _⟩
      · refine ⟨hdefined, ?_, nofun⟩
        rw [size_modify]
        exact hgrown

theorem mergeSymbols (path : String) (version : String → Nat) (os : List ObjectSymbol) :
    Leaves (Coherent links)
      (fun r => Coherent links r.2 ∧ t.size ≤ r.2.size ∧ ∀ l ∈ r.1, l.Within r.2)
      (SymbolTable.mergeSymbols path version t os) := by
  induction os generalizing t with
  | nil => exact ⟨h, Nat.le_refl _, nofun⟩
  | cons o os ih =>
    refine (h.mergeSymbol path version o).bind ?_
    rintro ⟨link, t₁⟩ ⟨h₁, hsize₁, hlink⟩
    refine (ih h₁).bind ?_
    rintro ⟨pending, t₂⟩ ⟨h₂, hsize₂, hpending⟩
    refine ⟨h₂, Nat.le_trans hsize₁ hsize₂, fun l hl => ?_⟩
    rcases mem_append.mp hl with hl | hl
    · exact (hlink l (Option.mem_toList.mp hl)).mono hsize₂
    · exact hpending l hl

theorem contain (hl : l.Within t) (hcontain : t.contain l.sub l.outer l.offset = .ok t') :
    Coherent (links ++ if (t.get l.sub).outer = none then [l] else []) t' := by
  rcases contain_ok hcontain with ⟨hsame, rfl⟩ | ⟨hnone, hcyclic, -, rfl⟩
  · rw [if_neg (by rw [hsame]; exact Option.some_ne_none _), append_nil]
    exact h
  · rw [if_pos hnone]
    exact h.putWithin hl.1 hl.2 hnone hcyclic

theorem mergeLinks (path : String) {pending : List PendingLink}
    (hpending : ∀ l ∈ pending, l.Within t) :
    Leaves (Coherent (links ++ t.linksMade pending)) (Coherent (links ++ t.linksMade pending))
      (SymbolTable.mergeLinks path t pending) := by
  induction pending generalizing links t with
  | nil =>
    rw [linksMade, append_nil]
    exact h
  | cons l pending ih =>
    rw [SymbolTable.mergeLinks, foldlM_cons, linksMade]
    cases hcontain : t.contain l.sub l.outer l.offset with
    | error reason =>
      rw [append_nil]
      exact h
    | ok t₁ =>
      have hmade : (if (t.get l.sub).outer = none then l :: t₁.linksMade pending
          else t₁.linksMade pending) =
          (if (t.get l.sub).outer = none then [l] else []) ++ t₁.linksMade pending := by
        split <;> rfl
      dsimp only
      rw [hmade, ← append_assoc]
      refine ih (h.contain (hpending l mem_cons_self) hcontain) fun l' hl' => ?_
      exact (hpending l' (mem_cons_of_mem l hl')).mono (Quiet.contain hcontain).size

theorem mergeImport (i : ObjectImport) : Coherent links (t.mergeImport i) := by
  refine (h.lookup i.name 0).modify (fun s => ?_) fun s => .inl ?_
  · split <;> rfl
  · split <;> rfl

theorem merge (o : Object) (index : Nat) :
    Coherent (links ++ (Operation.merge o index).links t) (left (·) (t.merge o index)) := by
  have hsymbols := h.mergeSymbols o.path (versionIn o index) o.symbols
  simp only [SymbolTable.merge, Operation.links]
  generalize SymbolTable.mergeSymbols o.path (versionIn o index) t o.symbols = merged at hsymbols
  cases merged with
  | error failure =>
    rw [append_nil]
    exact hsymbols
  | ok r =>
    obtain ⟨h₁, -, hpending⟩ := hsymbols
    refine Leaves.left ((h₁.mergeLinks o.path hpending).bind fun t₂ h₂ => ?_)
    exact foldl_induction (P := Coherent _) h₂ fun _ i _ ht => ht.mergeImport i

/-! ## The other operations -/

theorem addStringVariable (name value : String) :
    Coherent links (left (·.2) (t.addStringVariable name value)) := by
  have hlookup := h.lookup (name ++ ".str") 0
  have hid := t.lookup_lt_size (name ++ ".str") 0
  simp only [SymbolTable.addStringVariable]
  generalize t.lookup (name ++ ".str") 0 = found at hlookup hid
  obtain ⟨bytesId, t₀⟩ := found
  split
  · exact hlookup
  · generalize hbytes : t₀.modify bytesId _ = t₁
    have h₁ : Coherent links t₁ := by
      rw [← hbytes]
      exact hlookup.modify (fun _ => rfl) fun _ => .inr nofun
    have hsize : bytesId < (t₁.lookup name 0).2.size := by
      refine Nat.lt_of_lt_of_le ?_ (Quiet.lookup t₁ name 0).size
      rw [← hbytes, size_modify]
      exact hid
    split
    · exact h₁.lookup name 0
    · refine (h₁.lookup name 0).modify (fun _ => rfl) fun s => .inr ?_
      -- the one relocation leads to the bytes
      intro r hr target htarget
      obtain rfl := mem_singleton.mp hr
      cases htarget
      exact hsize

theorem defineSpecial (name : String) (kind : SymbolKind) (value : Nat) :
    Coherent links (t.defineSpecial name kind value).2 :=
  (h.lookup name 0).modify (fun _ => rfl) fun _ => .inl rfl

/-- **One operation** leaves a coherent table, whether or not it succeeds. -/
theorem perform {op : Operation} (hop : op.Permitted t) :
    Coherent (links ++ op.links t) (op.perform t) := by
  cases op with
  | merge o index => exact h.merge o index
  | contain sub outer offset =>
    simp only [Operation.links, Operation.perform, linksMade]
    cases hcontain : t.contain sub outer offset with
    | error reason =>
      rw [append_nil]
      exact h
    | ok t₁ => exact h.contain (l := ⟨sub, outer, offset⟩) hop hcontain
  | lookup name version =>
    rw [Operation.links, append_nil]
    exact h.lookup name version
  | setVariable name value =>
    rw [Operation.links, append_nil]
    exact h.addStringVariable name value
  | defineSpecial name kind value =>
    rw [Operation.links, append_nil]
    exact h.defineSpecial name kind value
  | markReachable roots =>
    rw [Operation.links, append_nil]
    have hkeeps := t.keeps_markReachable roots
    exact h.congr (hkeeps.map fun s => (s.key, ties s))
      fun id => .inl ((hkeeps.map Symbol.relocations).2 id)

/-- **All operations** leave a coherent table. -/
theorem performAll (hops : t.Permitted ops) :
    Coherent (links ++ t.linksOf ops) (t.performAll ops) := by
  induction ops generalizing links t with
  | nil =>
    rw [linksOf, append_nil]
    exact h
  | cons op ops ih =>
    obtain ⟨hop, hops⟩ := hops
    rw [linksOf, ← append_assoc]
    exact ih (h.perform hop) hops

theorem outer_performAll (hops : t.Permitted ops) {c : Container}
    (houter : (t.get id).outer = some c) : ((t.performAll ops).get id).outer = some c := by
  rw [h.forest.outer] at houter
  obtain ⟨l, hfind, hc⟩ := Option.map_eq_some_iff.mp houter
  rw [(h.performAll hops).forest.outer, find?_append, hfind]
  exact congrArg some hc

theorem lt_size_of_refers {x : SymbolId} (hrefers : Refers t id x) : x < t.size := by
  cases hrefers with
  | target hr htarget => exact h.targets id _ hr x htarget
  | outer houter => exact h.forest.lt_size houter
  | sub hpart =>
    obtain ⟨offset, houter⟩ := h.forest.mem_subs.mp hpart
    exact (Refers.outer houter).lt_size

theorem lt_size_of_reaches {roots : List SymbolId} (hroots : ∀ root ∈ roots, root < t.size)
    (hreaches : Reaches t roots id) : id < t.size := by
  obtain ⟨root, hroot, hpath⟩ := hreaches
  cases hpath with
  | refl => exact hroots id hroot
  | tail _ hrefers => exact h.lt_size_of_refers hrefers

end Coherent

/-! ## Containers, parts and names -/

/-- **The forest of containers.** Whatever was done to a fresh table, with or without success: the
way outward from a symbol ends, never comes back to it, and is seen as a whole by `outermost` and by
`liesWithin`; from the first part of a container on, its parts are met once each, the latest first,
and they are the symbols that name it; no link is ever changed; and each name has one symbol, which
is found by it. The offset that `outermost` gives is the sum of the offsets on the way, in 64 bits.
-/
theorem containment_forest {ops : List Operation} (hops : initial.Permitted ops) :
    let t := initial.performAll ops
    (∀ id, (t.get (t.outermost id).1).outer = none ∧
      ∃ steps offset, LiesIn t steps id (t.outermost id).1 offset ∧
        (t.outermost id).2 = offset % 2 ^ 64) ∧
    (∀ id c, (t.get id).outer = some c → ∀ steps offset, ¬ LiesIn t steps c.symbol id offset) ∧
    (∀ id < t.size, ∀ target, t.liesWithin target t.size id = true ↔
      ∃ steps offset, LiesIn t steps id target offset) ∧
    (∀ container, Spelled t (t.get container).sub (t.subs container) ∧
      (t.subs container).Nodup ∧
      (∀ id, id ∈ t.subs container ↔ ∃ offset, (t.get id).outer = some ⟨container, offset⟩) ∧
      t.subs container =
        (((initial.linksOf ops).filter (·.outer = container)).map (·.sub)).reverse) ∧
    (∀ more, t.Permitted more → ∀ id c, (t.get id).outer = some c →
      ((t.performAll more).get id).outer = some c) ∧
    (∀ i < t.size, ∀ j < t.size, (t.get i).name = (t.get j).name →
      (t.get i).version = (t.get j).version → i = j) ∧
    ∀ name version id, t.find? name version = some id ↔
      id < t.size ∧ (t.get id).name = name ∧ (t.get id).version = version := by
  intro t
  have h : Coherent (initial.linksOf ops) t := coherent_initial.performAll hops
  refine ⟨fun id => (h.forest.outermost id).symm, fun id c houter steps offset => ?_,
    fun id hid target => h.forest.liesWithin hid, fun container => ?_,
    fun more hmore id c houter => h.outer_performAll hmore houter,
    fun i hi j hj hname hversion => ?_, fun name version id => h.find?_eq_some_iff⟩
  · obtain ⟨k, root, delta, hlies, hroot⟩ := h.forest.ends id
    exact hlies.acyclic hroot houter
  · have hsubs := h.forest.subs container
    exact ⟨hsubs ▸ h.forest.spelled container, h.forest.nodup_subs container,
      fun id => h.forest.mem_subs, hsubs⟩
  · refine h.distinct i hi j hj ?_
    rw [Symbol.key, Symbol.key, hname, hversion]

/-- A box with a lid, a knob on the lid, and a ring that is too large for the box. -/
def boxFile : Object where
  path := "box.toml"
  symbols :=
    [{ name := "box", kind := .bss, kind_ne_undefined := bss_ne_undefined, size := 16 },
     { name := "lid", kind := .bss, kind_ne_undefined := bss_ne_undefined, size := 8,
       outer := some ("box", 4) },
     { name := "knob", kind := .bss, kind_ne_undefined := bss_ne_undefined, size := 2,
       outer := some ("lid", 2) },
     { name := "ring", kind := .bss, kind_ne_undefined := bss_ne_undefined, size := 32,
       outer := some ("box", 0) }]
  imports := []

/-- The file is refused half-way, and so are a box on its own knob and a second place for the knob.
A pin is put into the box last. -/
def boxOperations : List Operation :=
  [.merge boxFile 0, .contain 19 21 0, .contain 21 19 0, .lookup "pin" 0, .contain 23 19 12,
   .setVariable "label" "wood", .markReachable [24]]

theorem permitted_boxOperations : initial.Permitted boxOperations := by decide +kernel

theorem containment_forest_boxOperations : initial.Permitted boxOperations ∧
      initial.linksOf boxOperations = [⟨20, 19, 4⟩, ⟨21, 20, 2⟩, ⟨23, 19, 12⟩] ∧
      (∃ steps offset, LiesIn (initial.performAll boxOperations) steps 21 19 offset ∧
        6 = offset % 2 ^ 64) ∧
      Spelled (initial.performAll boxOperations) (some 23) [23, 20] ∧
      (initial.performAll boxOperations).find? "ring" 0 = some 22 := by
  obtain ⟨houtermost, -, -, hparts, -, -, hfind⟩ := containment_forest permitted_boxOperations
  have hlinks : initial.linksOf boxOperations = [⟨20, 19, 4⟩, ⟨21, 20, 2⟩, ⟨23, 19, 12⟩] := by
    decide +kernel
  refine ⟨permitted_boxOperations, hlinks, ?_, ?_, (hfind _ _ _).mpr (by decide +kernel)⟩
  · have hends : (initial.performAll boxOperations).outermost 21 = (19, 6) := by decide +kernel
    obtain ⟨steps, offset, hlies, hoffset⟩ := (houtermost 21).2
    rw [hends] at hlies hoffset
    exact ⟨steps, offset, hlies, hoffset⟩
  · obtain ⟨hspelled, -, -, hsubs⟩ := hparts 19
    have hlatest : ((initial.performAll boxOperations).get 19).sub = some 23 := by decide +kernel
    rw [hsubs, hlinks, hlatest] at hspelled
    exact hspelled

/-! ## Marks -/

/-- **Reachability.** In every table that operations have made, marking goes from symbol to symbol
of the table until nothing is left to be marked; then marked is what was marked before, and what a
path of references leads to from one of the roots. Nothing but marks changes, and neither the order
of the roots nor their number matters. -/
theorem reachable_iff_reaches {ops : List Operation} (hops : initial.Permitted ops)
    {roots : List SymbolId} (hroots : ∀ root ∈ roots, root < (initial.performAll ops).size) :
    let t := initial.performAll ops
    (∀ id x, Refers t id x → x < t.size) ∧
    (∀ steps ≥ roots.length + t.referenceCount,
      t.flood steps roots (Array.replicate t.size false) =
        t.flood (roots.length + t.referenceCount) roots (Array.replicate t.size false)) ∧
    (∀ id, ((t.markReachable roots).get id).reachable = true ↔ (t.get id).reachable = true ∨
      ∃ root ∈ roots, Relation.ReflTransGen (Refers t) root id) ∧
    Keeps (fun s => { s with reachable := false }) t (t.markReachable roots) ∧
    ∀ roots', (∀ id, id ∈ roots' ↔ id ∈ roots) →
      t.markReachable roots' = t.markReachable roots := by
  intro t
  have h : Coherent (initial.linksOf ops) t := coherent_initial.performAll hops
  refine ⟨fun id x => h.lt_size_of_refers, fun steps hsteps => flood_eq hsteps, fun id => ?_,
    t.keeps_markReachable roots, fun roots' hsame => markReachable_congr fun id _ => ?_⟩
  · by_cases hid : id < t.size
    · exact reachable_markReachable_iff t roots hid
    · -- neither marks nor paths lead out of the table
      have hle : t.size ≤ id := Nat.le_of_not_lt hid
      rw [get_of_size_le hle, get_of_size_le ((t.keeps_markReachable roots).1.symm ▸ hle)]
      exact ⟨nofun, fun hor => absurd (h.lt_size_of_reaches hroots (hor.resolve_left nofun)) hid⟩
  · constructor
    · rintro ⟨root, hroot, hpath⟩
      exact ⟨root, (hsame root).mp hroot, hpath⟩
    · rintro ⟨root, hroot, hpath⟩
      exact ⟨root, (hsame root).mpr hroot, hpath⟩

/-- From the knob the pin is reached, and nothing leads to the ring. -/
theorem reachable_iff_reaches_boxOperations : initial.Permitted boxOperations ∧
      (∀ root ∈ [25, 21], root < (initial.performAll boxOperations).size) ∧
      Reaches (initial.performAll boxOperations) [25, 21] 23 ∧
      ¬ Reaches (initial.performAll boxOperations) [25, 21] 22 := by
  have hroots : ∀ root ∈ [25, 21], root < (initial.performAll boxOperations).size := by
    decide +kernel
  obtain ⟨-, -, hmarks, -, -⟩ := reachable_iff_reaches permitted_boxOperations hroots
  have hring : ¬ (((initial.performAll boxOperations).markReachable [25, 21]).get 22).reachable =
      true := by decide +kernel
  refine ⟨permitted_boxOperations, hroots, ?_,
    fun hreaches => hring ((hmarks 22).mpr (.inr hreaches))⟩
  exact ((hmarks 23).mp (by decide +kernel)).resolve_left (by decide +kernel)

end SymbolTable

end ArmLink
