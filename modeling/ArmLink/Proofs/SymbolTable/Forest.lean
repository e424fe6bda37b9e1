import ArmLink.Proofs.Relocation
import ArmLink.Proofs.SymbolTable
import ArmLink.SymbolTable.Merge
import Mathlib.Data.List.Nodup
import Mathlib.Data.List.Perm.Subperm

/-!
# The forest of containers

A symbol that lies within another one names its container and the next older part of the same
container, and a container names its latest part. All of this is determined by the links that were
made, in the order in which they were made.
-/

namespace ArmLink.SymbolTable

open List

variable {t t' : SymbolTable} {id root target : SymbolId} {steps offset steps' offset' : Nat}
  {c : Container} {links : List PendingLink}

/-! ## The way outward -/

/-- From `id`, that many links lead outward to `root`, where `id` lies at the offset. -/
inductive LiesIn (t : SymbolTable) : Nat → SymbolId → SymbolId → Nat → Prop
  | here (id : SymbolId) : LiesIn t 0 id id 0
  | within {steps : Nat} {id root : SymbolId} {offset : Nat} {c : Container}
      (houter : (t.get id).outer = some c) (hrest : LiesIn t steps c.symbol root offset) :
      LiesIn t (steps + 1) id root (c.offset + offset)

namespace LiesIn

theorem trans {inner : SymbolId} (h : LiesIn t steps inner id offset)
    (h' : LiesIn t steps' id root offset') :
    LiesIn t (steps + steps') inner root (offset + offset') := by
  induction h with
  | here =>
    rw [Nat.zero_add, Nat.zero_add]
    exact h'
  | within houter _ ih =>
    rw [Nat.add_right_comm, Nat.add_assoc _ _ offset']
    exact .within houter (ih h')

variable (h : LiesIn t steps id root offset)
include h

theorem mono (hkept : ∀ id c, (t.get id).outer = some c → (t'.get id).outer = some c) :
    LiesIn t' steps id root offset := by
  induction h with
  | here id => exact .here id
  | within houter _ ih => exact .within (hkept _ _ houter) ih

variable (hroot : (t.get root).outer = none)
include hroot

theorem unique {root' : SymbolId} (h' : LiesIn t steps' id root' offset')
    (hroot' : (t.get root').outer = none) : steps = steps' ∧ root = root' ∧ offset = offset' := by
  induction h generalizing steps' offset' with
  | here id =>
    cases h' with
    | here => exact ⟨rfl, rfl, rfl⟩
    | within houter _ =>
      rw [hroot] at houter
      cases houter
  | within houter _ ih =>
    cases h' with
    | here =>
      rw [hroot'] at houter
      cases houter
    | within houter' hrest' =>
      obtain rfl := Option.some.inj (houter.symm.trans houter')
      obtain ⟨rfl, rfl, rfl⟩ := ih hroot hrest'
      exact ⟨rfl, rfl, rfl⟩

/-- **No cycle.** What leads to the end does not come back to where it was. -/
theorem acyclic (houter : (t.get id).outer = some c) : ¬ LiesIn t steps' c.symbol id offset' := by
  intro hback
  obtain ⟨hsteps, -⟩ := h.unique hroot ((LiesIn.within houter hback).trans h) hroot
  omega

/-- The symbols on the way are different, and each has its own distance to the end. -/
theorem exists_path (hlt : ∀ id c, (t.get id).outer = some c → c.symbol < t.size)
    (hid : id < t.size) : ∃ path : List SymbolId, path.length = steps + 1 ∧ path.Nodup ∧
      ∀ x ∈ path, x < t.size ∧ ∃ k ≤ steps, ∃ delta, LiesIn t k x root delta := by
  induction h with
  | here id =>
    refine ⟨[id], rfl, by simp, fun x hx => ?_⟩
    obtain rfl := mem_singleton.mp hx
    exact ⟨hid, 0, Nat.le_refl 0, 0, .here x⟩
  | @within steps id root offset c houter hrest ih =>
    obtain ⟨path, hlength, hnodup, hpath⟩ := ih hroot (hlt _ _ houter)
    have hself := LiesIn.within houter hrest
    refine ⟨id :: path, by rw [length_cons, hlength], ?_, ?_⟩
    · refine nodup_cons.mpr ⟨fun hmem => ?_, hnodup⟩
      -- a symbol that was met again would be nearer to the end than it is
      obtain ⟨-, k, hk, delta, hagain⟩ := hpath id hmem
      obtain ⟨hsteps, -⟩ := hself.unique hroot hagain hroot
      omega
    · intro x hx
      rcases mem_cons.mp hx with rfl | hx
      · exact ⟨hid, steps + 1, Nat.le_refl _, _, hself⟩
      · obtain ⟨hx, k, hk, hlies⟩ := hpath x hx
        exact ⟨hx, k, Nat.le_succ_of_le hk, hlies⟩

theorem lt_size (hlt : ∀ id c, (t.get id).outer = some c → c.symbol < t.size) (hid : id < t.size) :
    steps < t.size := by
  obtain ⟨path, hlength, hnodup, hpath⟩ := h.exists_path hroot hlt hid
  have hsub : path ⊆ range t.size := fun x hx => mem_range.mpr (hpath x hx).1
  have hle := (subperm_of_subset hnodup hsub).length_le
  rw [hlength, length_range] at hle
  exact hle

theorem walkOut {fuel : Nat} (start : Nat) (hfuel : steps ≤ fuel) :
    t.walkOut fuel id (Word64.wrap start) = (root, Word64.wrap (start + offset)) := by
  induction h generalizing fuel start with
  | here id =>
    cases fuel with
    | zero => rfl
    | succ fuel => simp only [SymbolTable.walkOut, hroot, Nat.add_zero]
  | within houter _ ih =>
    obtain ⟨fuel, rfl⟩ : ∃ n, fuel = n + 1 := ⟨fuel - 1, by omega⟩
    simp only [SymbolTable.walkOut, houter, Word64.wrap_add]
    rw [ih hroot _ (by omega), Nat.add_assoc]

end LiesIn

/-- What `liesWithin` tells: whether fewer links than `steps` lead to the target. -/
theorem liesWithin_iff : t.liesWithin target steps id = true ↔
    ∃ k < steps, ∃ offset, LiesIn t k id target offset := by
  induction steps generalizing id with
  | zero => simp [liesWithin]
  | succ steps ih =>
    simp only [liesWithin, Bool.or_eq_true, decide_eq_true_eq]
    constructor
    · rintro (rfl | h)
      · exact ⟨0, Nat.succ_pos steps, 0, .here id⟩
      · split at h
        · rename_i c houter
          obtain ⟨k, hk, offset, hlies⟩ := ih.mp h
          exact ⟨k + 1, Nat.succ_lt_succ hk, _, .within houter hlies⟩
        · cases h
    · rintro ⟨k, hk, offset, hlies⟩
      cases hlies with
      | here => exact .inl rfl
      | within houter hrest =>
        refine .inr ?_
        rw [houter]
        exact ih.mpr ⟨_, Nat.lt_of_succ_lt_succ hk, _, hrest⟩

/-! ## Links -/

def PendingLink.container (l : PendingLink) : Container := ⟨l.outer, l.offset⟩

section PutWithin

variable {sub outer : SymbolId}

theorem size_putWithin : (t.putWithin sub outer offset).size = t.size := by
  rw [SymbolTable.putWithin, size_modify, size_modify]

theorem outer_putWithin : ((t.putWithin sub outer offset).get id).outer =
      if id = sub ∧ sub < t.size then some ⟨outer, offset⟩ else (t.get id).outer := by
  have hkeeps : Keeps Symbol.outer t (t.modify outer fun o => { o with sub := some sub }) :=
    .modify rfl
  rw [SymbolTable.putWithin, get_modify, size_modify]
  split
  · rfl
  · exact hkeeps.2 id

theorem sub_putWithin : ((t.putWithin sub outer offset).get id).sub =
      if id = outer ∧ outer < t.size then some sub else (t.get id).sub := by
  have hkeeps : Keeps Symbol.sub (t.modify outer fun o => { o with sub := some sub })
      (t.putWithin sub outer offset) := .modify rfl
  rw [hkeeps.2 id, get_modify]
  split <;> rfl

theorem nextSub_putWithin : ((t.putWithin sub outer offset).get id).nextSub =
      if id = sub ∧ sub < t.size then (t.get outer).sub else (t.get id).nextSub := by
  have hkeeps : Keeps Symbol.nextSub t (t.modify outer fun o => { o with sub := some sub }) :=
    .modify rfl
  rw [SymbolTable.putWithin, get_modify, size_modify]
  split
  · rfl
  · exact hkeeps.2 id

end PutWithin

/-! ## From the latest part on -/

/-- These are the symbols from `first` on, each followed by the one that it names as the next. -/
inductive Spelled (t : SymbolTable) : (first : Option SymbolId) → List SymbolId → Prop
  | nil : Spelled t none []
  | cons {id : SymbolId} {rest : List SymbolId} (h : Spelled t (t.get id).nextSub rest) :
      Spelled t (some id) (id :: rest)

namespace Spelled

variable {first : Option SymbolId} {parts : List SymbolId} (h : Spelled t first parts)
include h

/-- Only the symbols that are met on the way matter. -/
theorem congr (hnext : ∀ id ∈ parts, (t'.get id).nextSub = (t.get id).nextSub) :
    Spelled t' first parts := by
  induction h with
  | nil => exact .nil
  | @cons id rest _ ih =>
    refine .cons ?_
    rw [hnext id mem_cons_self]
    exact ih fun x hx => hnext x (mem_cons_of_mem id hx)

theorem first_mem (hfirst : first = some id) : id ∈ parts := by
  cases h with
  | nil => cases hfirst
  | cons => exact Option.some.inj hfirst ▸ mem_cons_self

theorem next_mem {x : SymbolId} (hid : id ∈ parts) (hnext : (t.get id).nextSub = some x) :
    x ∈ parts := by
  induction h with
  | nil => cases hid
  | @cons y rest hrest ih =>
    refine mem_cons_of_mem y ?_
    rcases mem_cons.mp hid with rfl | hid
    · exact hrest.first_mem hnext
    · exact ih hid

/-- With enough steps the whole way is seen. -/
theorem subsFrom (hsteps : parts.length ≤ steps) : t.subsFrom steps first = parts := by
  induction h generalizing steps with
  | nil => cases steps <;> rfl
  | cons _ ih =>
    cases steps with
    | zero => cases hsteps
    | succ steps => rw [SymbolTable.subsFrom, ih (Nat.le_of_succ_le_succ hsteps)]

end Spelled

/-- The symbols that links put into a container, the latest first. -/
def parts (links : List PendingLink) (container : SymbolId) : List SymbolId :=
  ((links.filter (·.outer = container)).map (·.sub)).reverse

theorem parts_concat (links : List PendingLink) (l : PendingLink) (container : SymbolId) :
    parts (links ++ [l]) container =
      if container = l.outer then l.sub :: parts links container else parts links container := by
  unfold parts
  split
  · rename_i h
    simp [h]
  · rename_i h
    simp [Ne.symm h]

/-- The links of the table are these, made in this order, and every way outward ends. -/
structure Forest (links : List PendingLink) (t : SymbolTable) : Prop where
  outer : ∀ id, (t.get id).outer = (links.find? (·.sub = id)).map (·.container)
  /-- from the latest part of a container on, all that was put there is met -/
  spelled : ∀ id, Spelled t (t.get id).sub (parts links id)
  alone : ∀ id, (t.get id).outer = none → (t.get id).nextSub = none
  once : (links.map (·.sub)).Nodup
  there : ∀ l ∈ links, l.sub < t.size ∧ l.outer < t.size
  ends : ∀ id, ∃ steps root offset, LiesIn t steps id root offset ∧ (t.get root).outer = none

namespace Forest

variable {sub outer : SymbolId}

variable (h : Forest links t)
include h

theorem find?_eq_some {l : PendingLink} (hl : l ∈ links) :
    links.find? (·.sub = l.sub) = some l := by
  cases hfind : links.find? (·.sub = l.sub) with
  | none => simpa using List.find?_eq_none.mp hfind l hl
  | some l' =>
    have hsub : l'.sub = l.sub := by simpa using find?_some hfind
    exact congrArg some (inj_on_of_nodup_map h.once (mem_of_find?_eq_some hfind) hl hsub)

theorem exists_link (houter : (t.get id).outer = some c) :
    ∃ l ∈ links, l.sub = id ∧ l.container = c := by
  rw [h.outer] at houter
  obtain ⟨l, hfind, hc⟩ := Option.map_eq_some_iff.mp houter
  exact ⟨l, mem_of_find?_eq_some hfind, by simpa using find?_some hfind, hc⟩

theorem lt_size (houter : (t.get id).outer = some c) : c.symbol < t.size := by
  obtain ⟨l, hl, -, rfl⟩ := h.exists_link houter
  exact (h.there l hl).2

theorem length_parts_le (container : SymbolId) : (parts links container).length ≤ t.size := by
  -- each symbol is put somewhere once at most, so that there are no more links than symbols
  have hsub : links.map (·.sub) ⊆ range t.size := by
    intro x hx
    obtain ⟨l, hl, rfl⟩ := mem_map.mp hx
    exact mem_range.mpr (h.there l hl).1
  have hlinks := (subperm_of_subset h.once hsub).length_le
  rw [length_map, length_range] at hlinks
  rw [parts, length_reverse, length_map]
  exact Nat.le_trans (length_filter_le _ _) hlinks

/-- **Parts.** `subs` follows the names to the end, and so finds all that was put into a container,
the latest first. -/
theorem subs (container : SymbolId) : t.subs container = parts links container :=
  (h.spelled container).subsFrom (h.length_parts_le container)

theorem mem_subs {container : SymbolId} :
    id ∈ t.subs container ↔ ∃ offset, (t.get id).outer = some ⟨container, offset⟩ := by
  rw [h.subs, parts, mem_reverse, mem_map]
  constructor
  · rintro ⟨l, hl, rfl⟩
    obtain ⟨hl, houter⟩ := mem_filter.mp hl
    refine ⟨l.offset, ?_⟩
    rw [h.outer, h.find?_eq_some hl, ← of_decide_eq_true houter]
    rfl
  · rintro ⟨offset, houter⟩
    obtain ⟨l, hl, hsub, hcontainer⟩ := h.exists_link houter
    have hsame : l.outer = container := congrArg Container.symbol hcontainer
    exact ⟨l, mem_filter.mpr ⟨hl, decide_eq_true hsame⟩, hsub⟩

theorem lt_size_of_mem_parts {container : SymbolId} (hid : id ∈ parts links container) :
    id < t.size := by
  obtain ⟨l, hl, rfl⟩ := mem_map.mp (mem_reverse.mp hid)
  exact (h.there l (mem_filter.mp hl).1).1

theorem lt_size_of_nextSub {x : SymbolId} (hnext : (t.get id).nextSub = some x) : x < t.size := by
  cases houter : (t.get id).outer with
  | none =>
    rw [h.alone id houter] at hnext
    cases hnext
  | some c =>
    have hid : id ∈ t.subs c.symbol := h.mem_subs.mpr ⟨c.offset, houter⟩
    rw [h.subs] at hid
    exact h.lt_size_of_mem_parts ((h.spelled c.symbol).next_mem hid hnext)

theorem nodup_subs (id : SymbolId) : (t.subs id).Nodup := by
  rw [h.subs, parts, nodup_reverse]
  exact h.once.sublist (filter_sublist.map _)

/-- The way to the end is short enough for `outermost`. -/
theorem lt_size_of_liesIn (hlies : LiesIn t steps id root offset)
    (hroot : (t.get root).outer = none) (hid : id < t.size) : steps < t.size :=
  hlies.lt_size hroot (fun _ _ houter => h.lt_size houter) hid

/-- **Outermost.** What `outermost` finds is the end of the way outward, and the offsets on the way,
added up in 64 bits. -/
theorem outermost (id : SymbolId) : (∃ steps offset, LiesIn t steps id (t.outermost id).1 offset ∧
      (t.outermost id).2 = Word64.wrap offset) ∧ (t.get (t.outermost id).1).outer = none := by
  obtain ⟨steps, root, offset, hlies, hroot⟩ := h.ends id
  have hfuel : steps ≤ t.size := by
    by_cases hid : id < t.size
    · exact Nat.le_of_lt (h.lt_size_of_liesIn hlies hroot hid)
    · -- a symbol that is not there lies within none
      have hnone : (t.get id).outer = none := by
        rw [get_of_size_le (Nat.le_of_not_lt hid)]
        rfl
      obtain ⟨rfl, -⟩ := hlies.unique hroot (.here id) hnone
      exact Nat.zero_le _
  have hwalk : t.outermost id = (root, Word64.wrap (0 + offset)) :=
    hlies.walkOut hroot 0 hfuel
  rw [hwalk, Nat.zero_add]
  exact ⟨⟨steps, offset, hlies, rfl⟩, hroot⟩

/-- **Lies within.** `liesWithin` sees the whole way outward. -/
theorem liesWithin (hid : id < t.size) :
    t.liesWithin target t.size id = true ↔ ∃ steps offset, LiesIn t steps id target offset := by
  rw [liesWithin_iff]
  constructor
  · rintro ⟨steps, -, offset, hlies⟩
    exact ⟨steps, offset, hlies⟩
  · rintro ⟨steps, offset, hlies⟩
    obtain ⟨steps', root, offset', hrest, hroot⟩ := h.ends target
    have hlt := h.lt_size_of_liesIn (hlies.trans hrest) hroot hid
    exact ⟨steps, by omega, offset, hlies⟩

theorem congr (hsize : t.size ≤ t'.size) (hties : ∀ id, ties (t'.get id) = ties (t.get id)) :
    Forest links t' := by
  have houter (id : SymbolId) : (t'.get id).outer = (t.get id).outer := congrArg (·.1) (hties id)
  have hsub (id : SymbolId) : (t'.get id).sub = (t.get id).sub := congrArg (·.2.1) (hties id)
  have hnext (id : SymbolId) : (t'.get id).nextSub = (t.get id).nextSub :=
    congrArg (·.2.2) (hties id)
  refine ⟨fun id => (houter id).trans (h.outer id), fun id => ?_,
    fun id hid => (hnext id).trans (h.alone id ((houter id).symm.trans hid)), h.once,
    fun l hl => ?_, fun id => ?_⟩
  · rw [hsub]
    exact (h.spelled id).congr fun x _ => hnext x
  · obtain ⟨hsub, hcontainer⟩ := h.there l hl
    exact ⟨Nat.lt_of_lt_of_le hsub hsize, Nat.lt_of_lt_of_le hcontainer hsize⟩
  · obtain ⟨steps, root, offset, hlies, hroot⟩ := h.ends id
    exact ⟨steps, root, offset, hlies.mono fun x c hx => (houter x).trans hx,
      (houter root).trans hroot⟩

/-- **Growth.** A symbol that lies within none is put within one that does not lie within it. -/
theorem putWithin (hsub : sub < t.size) (houter : outer < t.size) (hnone : (t.get sub).outer = none)
    (hcyclic : t.liesWithin sub t.size outer = false) :
    Forest (links ++ [⟨sub, outer, offset⟩]) (t.putWithin sub outer offset) := by
  have hfind : links.find? (·.sub = sub) = none := by
    rw [h.outer] at hnone
    exact Option.map_eq_none_iff.mp hnone
  have hnew (l : PendingLink) (hl : l ∈ links) : l.sub ≠ sub := by
    simpa using List.find?_eq_none.mp hfind l hl
  refine ⟨fun id => ?_, fun id => ?_, fun id hid => ?_, ?_, fun l hl => ?_, fun id => ?_⟩
  · rw [outer_putWithin, find?_append]
    by_cases hid : id = sub
    · subst hid
      rw [if_pos ⟨rfl, hsub⟩, hfind]
      simp [PendingLink.container]
    · rw [if_neg fun hand => hid hand.1, h.outer]
      simp [Ne.symm hid]
  · -- the parts that were there before do not meet `sub`
    have hbefore : Spelled (t.putWithin sub outer offset) (t.get id).sub (parts links id) := by
      refine (h.spelled id).congr fun x hx => ?_
      obtain ⟨l, hl, rfl⟩ := mem_map.mp (mem_reverse.mp hx)
      rw [nextSub_putWithin, if_neg fun hand => hnew l (mem_filter.mp hl).1 hand.1]
    rw [sub_putWithin, parts_concat]
    by_cases hid : id = outer
    · subst hid
      rw [if_pos ⟨rfl, houter⟩, if_pos rfl]
      refine .cons ?_
      rw [nextSub_putWithin, if_pos ⟨rfl, hsub⟩]
      exact hbefore
    · rw [if_neg fun hand => hid hand.1, if_neg hid]
      exact hbefore
  · rw [outer_putWithin] at hid
    rw [nextSub_putWithin]
    split at hid
    · cases hid
    · rename_i hne
      rw [if_neg hne]
      exact h.alone id hid
  · rw [map_append, nodup_append]
    refine ⟨h.once, by simp, fun a ha b hb hab => ?_⟩
    obtain ⟨l, hl, rfl⟩ := mem_map.mp ha
    obtain rfl := mem_singleton.mp hb
    exact hnew l hl hab
  · rw [size_putWithin]
    rcases mem_append.mp hl with hl | hl
    · exact h.there l hl
    · obtain rfl := mem_singleton.mp hl
      exact ⟨hsub, houter⟩
  · -- whatever ended at `sub` now goes on from `outer`, which ends elsewhere
    have hkept (x : SymbolId) (c : Container) (hx : (t.get x).outer = some c) :
        ((t.putWithin sub outer offset).get x).outer = some c := by
      rw [outer_putWithin, if_neg, hx]
      rintro ⟨rfl, -⟩
      rw [hnone] at hx
      cases hx
    have hend {x : SymbolId} (hx : (t.get x).outer = none) (hne : x ≠ sub) :
        ((t.putWithin sub outer offset).get x).outer = none := by
      rw [outer_putWithin, if_neg fun hand => hne hand.1, hx]
    obtain ⟨steps, root, delta, hlies, hroot⟩ := h.ends id
    by_cases hne : root = sub
    · subst hne
      obtain ⟨steps', root', delta', hlies', hroot'⟩ := h.ends outer
      have hput : ((t.putWithin root outer offset).get root).outer = some ⟨outer, offset⟩ := by
        rw [outer_putWithin, if_pos ⟨rfl, hsub⟩]
      refine ⟨_, root', _, (hlies.mono hkept).trans (.within hput (hlies'.mono hkept)),
        hend hroot' ?_⟩
      · rintro rfl
        rw [(h.liesWithin houter).mpr ⟨steps', delta', hlies'⟩] at hcyclic
        cases hcyclic
    · exact ⟨steps, root, delta, hlies.mono hkept, hend hroot hne⟩

end Forest

end ArmLink.SymbolTable
