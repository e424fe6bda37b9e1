import ArmLink.Proofs.SymbolTable
import ArmLink.SymbolTable.Reach
import Mathlib.Algebra.BigOperators.Group.List.Basic
import Mathlib.Algebra.GroupWithZero.Nat
import Mathlib.Logic.Relation

/-!
# What is marked

Marking goes through a worklist. Each symbol is marked once, and what it refers to is put on the
list at that moment, so that the number of references bounds the number of steps.
-/

namespace ArmLink.SymbolTable

open List

variable {t : SymbolTable} {id x : SymbolId} {roots worklist : List SymbolId} {marks : Array Bool}
  {steps : Nat}

theorem keeps_markReachable (t : SymbolTable) (roots : List SymbolId) :
    Keeps (fun s => { s with reachable := false }) t (t.markReachable roots) := by
  refine ⟨Array.size_mapIdx, fun id => ?_⟩
  simp only [SymbolTable.get, markReachable, Array.getD_eq_getD_getElem?, Array.getElem?_mapIdx]
  cases t.symbols[id]? with
  | none => rfl
  | some s => rfl

/-! ## References -/

/-- A symbol refers to the targets of its relocations, to its container and to its parts. -/
inductive Refers (t : SymbolTable) (id : SymbolId) : SymbolId → Prop
  | target {r : Relocation SymbolId} {target : SymbolId} (hr : r ∈ (t.get id).relocations)
      (htarget : r.target? = some target) : Refers t id target
  | outer {c : Container} (houter : (t.get id).outer = some c) : Refers t id c.symbol
  | sub {part : SymbolId} (hpart : part ∈ t.subs id) : Refers t id part

theorem mem_references : x ∈ t.references id ↔ Refers t id x := by
  simp only [references, mem_append, mem_filterMap, Option.mem_toList,
    Option.map_eq_some_iff]
  constructor
  · rintro ((⟨r, hr, htarget⟩ | ⟨c, houter, rfl⟩) | hpart)
    · exact .target hr htarget
    · exact .outer houter
    · exact .sub hpart
  · rintro (⟨hr, htarget⟩ | ⟨houter⟩ | ⟨hpart⟩)
    · exact .inl (.inl ⟨_, hr, htarget⟩)
    · exact .inl (.inr ⟨_, houter, rfl⟩)
    · exact .inr hpart

theorem Refers.lt_size (h : Refers t id x) : id < t.size := by
  refine Nat.lt_of_not_le fun hle => ?_
  have hnone : t.get id = default := get_of_size_le hle
  have hsubs : t.subs id = [] := by
    rw [subs, hnone]
    cases t.size <;> rfl
  rcases h with ⟨hr, -⟩ | ⟨houter⟩ | ⟨hpart⟩
  · rw [hnone] at hr
    cases hr
  · rw [hnone] at houter
    cases houter
  · rw [hsubs] at hpart
    cases hpart

/-- A path of references leads from one of the roots to the symbol. -/
def Reaches (t : SymbolTable) (roots : List SymbolId) (id : SymbolId) : Prop :=
  ∃ root ∈ roots, Relation.ReflTransGen (Refers t) root id

/-! ## The worklist -/

theorem getD_mark_iff {j : SymbolId} : (marks.setIfInBounds id true).getD j false = true ↔
    marks.getD j false = true ∨ j = id ∧ id < marks.size := by
  by_cases hj : id = j
  · subst hj
    by_cases hlt : id < marks.size
    · simp [hlt]
    · simp [hlt]
  · simp [hj, Ne.symm hj]

/-- What the worklist passes over is marked or is not there. -/
theorem getD_true_iff :
    marks.getD id true = true ↔ marks.getD id false = true ∨ marks.size ≤ id := by
  by_cases hlt : id < marks.size
  · simp [hlt, Nat.not_le_of_lt hlt]
  · simp [hlt, Nat.le_of_not_lt hlt]

theorem getD_replicate (size : Nat) (id : SymbolId) :
    ¬ (Array.replicate size false).getD id false = true := by
  rw [Array.getD_eq_getD_getElem?, Array.getElem?_replicate]
  split <;> exact Bool.false_ne_true

theorem size_flood : (t.flood steps worklist marks).size = marks.size := by
  fun_induction flood t steps worklist marks with
  | case1 => rfl
  | case2 => rfl
  | case3 _ _ _ _ _ ih => exact ih
  | case4 _ _ _ _ _ ih => rw [ih, Array.size_setIfInBounds]

/-- **Sound.** Whatever references do not lead out of holds all that is marked from within it. -/
theorem flood_sound {S : SymbolId → Prop} (hS : ∀ id x, S id → Refers t id x → S x)
    (hlist : ∀ id ∈ worklist, S id) (hmarks : ∀ id, marks.getD id false = true → S id)
    (id : SymbolId) (h : (t.flood steps worklist marks).getD id false = true) : S id := by
  fun_induction flood t steps worklist marks with
  | case1 => exact hmarks id h
  | case2 => exact hmarks id h
  | case3 _ next rest _ _ ih => exact ih (fun x hx => hlist x (mem_cons_of_mem next hx)) hmarks h
  | case4 _ next rest marks _ ih =>
    have hnext := hlist next mem_cons_self
    refine ih (fun x hx => ?_) (fun x hx => ?_) h
    · rcases mem_append.mp hx with hx | hx
      · exact hS next x hnext (mem_references.mp hx)
      · exact hlist x (mem_cons_of_mem next hx)
    · rcases getD_mark_iff.mp hx with hx | ⟨rfl, -⟩
      · exact hmarks x hx
      · exact hnext

/-- What a marked symbol refers to is marked or waits on the list, and the steps suffice for the
list and for the references of all symbols that are not marked yet. -/
structure Worked (t : SymbolTable) (steps : Nat) (worklist : List SymbolId) (marks : Array Bool) :
    Prop where
  size : marks.size = t.size
  waits : ∀ id, marks.getD id false = true → ∀ x, Refers t id x → x < t.size →
    marks.getD x false = true ∨ x ∈ worklist
  enough : ∃ unmarked : List SymbolId, (∀ id < t.size, marks.getD id false = true ∨ id ∈ unmarked) ∧
    worklist.length + (unmarked.map fun id => (t.references id).length).sum ≤ steps

namespace Worked

variable {rest : List SymbolId}

theorem skip (h : Worked t (steps + 1) (id :: rest) marks) (hid : marks.getD id true = true) :
    Worked t steps rest marks := by
  refine ⟨h.size, fun y hy x hx hlt => ?_, ?_⟩
  · rcases h.waits y hy x hx hlt with hmarked | hmem
    · exact .inl hmarked
    · rcases mem_cons.mp hmem with rfl | hmem
      · rcases getD_true_iff.mp hid with hmarked | hle
        · exact .inl hmarked
        · rw [h.size] at hle
          exact absurd hlt (Nat.not_lt.mpr hle)
      · exact .inr hmem
  · obtain ⟨unmarked, hall, hsum⟩ := h.enough
    rw [length_cons] at hsum
    exact ⟨unmarked, hall, by omega⟩

theorem mark (h : Worked t (steps + 1) (id :: rest) marks) (hid : ¬ marks.getD id true = true) :
    Worked t steps (t.references id ++ rest) (marks.setIfInBounds id true) := by
  have hmarked : ¬ marks.getD id false = true := fun hm => hid (getD_true_iff.mpr (.inl hm))
  have hlt : id < marks.size := Nat.lt_of_not_le fun hle => hid (getD_true_iff.mpr (.inr hle))
  refine ⟨by rw [Array.size_setIfInBounds, h.size], fun y hy x hx hxlt => ?_, ?_⟩
  · rcases getD_mark_iff.mp hy with hy | ⟨rfl, -⟩
    · rcases h.waits y hy x hx hxlt with hx | hx
      · exact .inl (getD_mark_iff.mpr (.inl hx))
      · rcases mem_cons.mp hx with rfl | hx
        · exact .inl (getD_mark_iff.mpr (.inr ⟨rfl, hlt⟩))
        · exact .inr (mem_append_right _ hx)
    · exact .inr (mem_append_left _ (mem_references.mpr hx))
  · -- the references of `id` move from the symbols that are not marked to the list
    obtain ⟨unmarked, hall, hsum⟩ := h.enough
    have hmem : id ∈ unmarked := (hall id (h.size ▸ hlt)).resolve_left hmarked
    refine ⟨unmarked.erase id, fun x hx => ?_, ?_⟩
    · by_cases hxid : x = id
      · exact .inl (getD_mark_iff.mpr (.inr ⟨hxid, hlt⟩))
      · rcases hall x hx with hx | hx
        · exact .inl (getD_mark_iff.mpr (.inl hx))
        · exact .inr ((mem_erase_of_ne hxid).mpr hx)
    · have herase := sum_map_erase (fun id => (t.references id).length) hmem
      rw [length_cons] at hsum
      rw [length_append]
      omega

/-- **Complete.** Marks stay, what waits is marked, and then no reference leads to a symbol that is
not marked. -/
theorem flood (h : Worked t steps worklist marks) :
    (∀ id, marks.getD id false = true → (t.flood steps worklist marks).getD id false = true) ∧
      (∀ id ∈ worklist, id < t.size → (t.flood steps worklist marks).getD id false = true) ∧
      ∀ id, (t.flood steps worklist marks).getD id false = true → ∀ x, Refers t id x → x < t.size →
        (t.flood steps worklist marks).getD x false = true := by
  fun_induction SymbolTable.flood t steps worklist marks with
  | case1 worklist marks =>
    obtain ⟨unmarked, -, hsum⟩ := h.enough
    obtain rfl : worklist = [] := eq_nil_of_length_eq_zero (by omega)
    exact ⟨fun _ hid => hid, nofun,
      fun y hy x hx hlt => (h.waits y hy x hx hlt).resolve_right nofun⟩
  | case2 _ marks =>
    exact ⟨fun _ hid => hid, nofun,
      fun y hy x hx hlt => (h.waits y hy x hx hlt).resolve_right nofun⟩
  | case3 steps next rest marks hskip ih =>
    obtain ⟨hstay, hlist, hclosed⟩ := ih (h.skip hskip)
    refine ⟨hstay, fun x hx hlt => ?_, hclosed⟩
    rcases mem_cons.mp hx with rfl | hx
    · rcases getD_true_iff.mp hskip with hmarked | hle
      · exact hstay x hmarked
      · rw [h.size] at hle
        exact absurd hlt (Nat.not_lt.mpr hle)
    · exact hlist x hx hlt
  | case4 steps next rest marks hmark ih =>
    obtain ⟨hstay, hlist, hclosed⟩ := ih (h.mark hmark)
    refine ⟨fun x hx => hstay x (getD_mark_iff.mpr (.inl hx)), fun x hx hlt => ?_, hclosed⟩
    rcases mem_cons.mp hx with rfl | hx
    · exact hstay x (getD_mark_iff.mpr (.inr ⟨rfl, by rwa [h.size]⟩))
    · exact hlist x (mem_append_right _ hx) hlt

end Worked

/-! ## All that is marked -/

theorem referenceCount_eq :
    t.referenceCount = (t.ids.map fun id => (t.references id).length).sum := by
  have hsum (ids : List SymbolId) (count : Nat) :
      ids.foldl (fun count id => count + (t.references id).length) count =
        count + (ids.map fun id => (t.references id).length).sum := by
    induction ids generalizing count with
    | nil => rfl
    | cons id ids ih => rw [foldl_cons, ih, map_cons, sum_cons, Nat.add_assoc]
  rw [referenceCount, hsum, Nat.zero_add]

variable (hsteps : roots.length + t.referenceCount ≤ steps)
include hsteps

theorem worked_roots : Worked t steps roots (Array.replicate t.size false) := by
  refine ⟨Array.size_replicate, fun id hid => absurd hid (getD_replicate _ _), t.ids,
    fun id hid => .inr (mem_ids.mpr hid), ?_⟩
  rw [← referenceCount_eq]
  exact hsteps

/-- **Marks.** With enough steps, the symbols that are marked are those that the roots reach. -/
theorem flood_iff (hid : id < t.size) :
    (t.flood steps roots (Array.replicate t.size false)).getD id false = true ↔
      Reaches t roots id := by
  constructor
  · refine flood_sound ?_ (fun root hroot => ⟨root, hroot, .refl⟩)
      (fun x hx => absurd hx (getD_replicate _ _)) id
    rintro x y ⟨root, hroot, hpath⟩ hrefers
    exact ⟨root, hroot, hpath.tail hrefers⟩
  · rintro ⟨root, hroot, hpath⟩
    obtain ⟨-, hlist, hclosed⟩ := (worked_roots hsteps).flood
    induction hpath with
    | refl => exact hlist root hroot hid
    | tail _ hrefers ih => exact hclosed _ (ih hrefers.lt_size) _ hrefers hid

theorem flood_eq : t.flood steps roots (Array.replicate t.size false) =
      t.flood (roots.length + t.referenceCount) roots (Array.replicate t.size false) := by
  have hsize (n : Nat) : (t.flood n roots (Array.replicate t.size false)).size = t.size := by
    rw [size_flood, Array.size_replicate]
  refine Array.ext ((hsize _).trans (hsize _).symm) fun i hi hi' => ?_
  have hlt : i < t.size := hsize steps ▸ hi
  have hsame := (flood_iff hsteps hlt).trans (flood_iff (Nat.le_refl _) hlt).symm
  simpa [Array.getD_eq_getD_getElem?, hi, hi'] using hsame

omit hsteps

/-- **Reach.** Marked is what was marked before, and what the roots reach. -/
theorem reachable_markReachable_iff (t : SymbolTable) (roots : List SymbolId) (hid : id < t.size) :
    ((t.markReachable roots).get id).reachable = true ↔
      (t.get id).reachable = true ∨ Reaches t roots id := by
  rw [← flood_iff (Nat.le_refl _) hid]
  simp only [SymbolTable.get, markReachable, Array.getD_eq_getD_getElem?, Array.getElem?_mapIdx]
  rw [Array.getElem?_eq_getElem hid]
  exact Bool.or_eq_true_iff

theorem reachable_markReachable (roots : List SymbolId) (h : (t.get id).reachable = true) :
    ((t.markReachable roots).get id).reachable = true := by
  have hid : id < t.size := lt_size_of_get (P := (·.reachable = true)) h nofun
  exact (reachable_markReachable_iff t roots hid).mpr (.inl h)

theorem forall_get_markReachable {P : Symbol → Prop} (h : ∀ id, P (t.get id))
    (hmark : ∀ s, P s → P { s with reachable := true }) (roots : List SymbolId) (id : SymbolId) :
    P ((t.markReachable roots).get id) := by
  have hget (mark : Bool) (hmarked : ((t.markReachable roots).get id).reachable = mark) :
      (t.markReachable roots).get id = { t.get id with reachable := mark } := by
    rw [← hmarked]
    exact congrArg
      (fun s : Symbol => { s with reachable := ((t.markReachable roots).get id).reachable })
      ((t.keeps_markReachable roots).2 id)
  cases hmarked : ((t.markReachable roots).get id).reachable with
  | true =>
    rw [hget true hmarked]
    exact hmark _ (h id)
  | false =>
    -- nothing loses its mark
    have hbefore : (t.get id).reachable = false := Bool.eq_false_iff.mpr fun hbefore => by
      rw [reachable_markReachable roots hbefore] at hmarked
      cases hmarked
    rw [hget false hmarked, ← hbefore]
    exact h id

theorem markReachable_congr {roots' : List SymbolId}
    (h : ∀ id < t.size, Reaches t roots id ↔ Reaches t roots' id) :
    t.markReachable roots = t.markReachable roots' := by
  have hkeeps := t.keeps_markReachable roots
  have hkeeps' := t.keeps_markReachable roots'
  refine eq_of_get (hkeeps.1.trans hkeeps'.1.symm) fun id hid => ?_
  have hlt : id < t.size := hkeeps'.1 ▸ hid
  have hmarks : ((t.markReachable roots).get id).reachable =
      ((t.markReachable roots').get id).reachable := by
    rw [Bool.eq_iff_iff, reachable_markReachable_iff t roots hlt,
      reachable_markReachable_iff t roots' hlt, h id hlt]
  have hrest := (hkeeps.2 id).trans (hkeeps'.2 id).symm
  exact congrArg₂ (fun (mark : Bool) (s : Symbol) => { s with reachable := mark }) hmarks hrest

end ArmLink.SymbolTable
