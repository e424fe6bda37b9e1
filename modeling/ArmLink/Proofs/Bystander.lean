import ArmLink.Proofs.SymbolTable.Forest
import ArmLink.Proofs.SymbolTable.Merge

/-!
# Bystanders

A bystander is a symbol of a table that nothing refers to. Were it not there, the symbols behind it
would stand one position nearer to the start, and everything that mentions them would mention the
other position. Whatever is done to a table, with the bystander or without it, is the same up to
these positions.
-/

namespace ArmLink

open List hiding lookup

/-- Two failures for the same reason, whatever they leave behind. -/
def SameError {ε σ σ' : Type} (failure : Failure ε σ) (failure' : Failure ε σ') : Prop :=
  failure'.error = failure.error

/-! ## Other positions -/

/-- The place of a symbol whose container has another position. -/
def Container.rename (f : SymbolId → SymbolId) (c : Container) : Container :=
  { c with symbol := f c.symbol }

namespace Symbol

/-- The symbol, with other positions for the symbols that it mentions. -/
@[simps] def rename (f : SymbolId → SymbolId) (s : Symbol) : Symbol :=
  { s with
    relocations := s.relocations.map (·.map f)
    outer := s.outer.map (·.rename f)
    sub := s.sub.map f
    nextSub := s.nextSub.map f }

variable (f : SymbolId → SymbolId) (s : Symbol)

@[simp] theorem isDefined_rename : (s.rename f).isDefined = s.isDefined := rfl

@[simp] theorem isImport_rename : (s.rename f).isImport = s.isImport := rfl

@[simp] theorem text_rename : (s.rename f).text = s.text := rfl

end Symbol

/-- A symbol that is not kept, and that neither shared libraries nor the linker know of, and its
position. -/
structure Bystander where
  position : Nat
  symbol : Symbol
  reachable : symbol.reachable = false
  special : symbol.special = false
  exported : symbol.exported = false
  outer : symbol.outer = none
  dynamicIndex : symbol.dynamicIndex = none

namespace Bystander

open SymbolTable

variable {b : Bystander} {t t' : SymbolTable} {id j : Nat}

/-- The position of a symbol in the table with the bystander. -/
def shift (b : Bystander) (id : Nat) : Nat := if id < b.position then id else id + 1

theorem shift_of_lt (h : id < b.position) : b.shift id = id := if_pos h

theorem shift_of_le (h : b.position ≤ id) : b.shift id = id + 1 := if_neg (Nat.not_lt.mpr h)

theorem shift_ne_position (b : Bystander) (id : Nat) : b.shift id ≠ b.position := by
  unfold shift
  split <;> omega

@[simp] theorem shift_inj : b.shift id = b.shift j ↔ id = j := by
  unfold shift
  split <;> split <;> omega

theorem eq_position_or_shift (b : Bystander) (j : Nat) : j = b.position ∨ ∃ id, j = b.shift id := by
  rcases Nat.lt_trichotomy j b.position with h | h | h
  · exact .inr ⟨j, (shift_of_lt h).symm⟩
  · exact .inl h
  · exact .inr ⟨j - 1, by rw [shift_of_le (by omega)]; omega⟩

/-! ## The table with the bystander -/

/-- The table with the bystander put in its place. -/
def insert (b : Bystander) (t : SymbolTable) : SymbolTable :=
  ⟨((t.symbols.toList.map (·.rename b.shift)).insertIdx b.position b.symbol).toArray⟩

theorem toList_insert : (b.insert t).symbols.toList =
    (t.symbols.toList.map (·.rename b.shift)).insertIdx b.position b.symbol := rfl

theorem size_insert : (b.insert t).size = if b.position ≤ t.size then t.size + 1 else t.size := by
  rw [SymbolTable.size, ← Array.length_toList, toList_insert, length_insertIdx,
    length_map, Array.length_toList, SymbolTable.size]

theorem size_insert_of_le (h : b.position ≤ t.size) : (b.insert t).size = t.size + 1 := by
  rw [size_insert, if_pos h]

theorem shift_lt_size : b.shift id < (b.insert t).size ↔ id < t.size := by
  rw [size_insert, shift]
  split <;> split <;> omega

@[simp] theorem get_insert (b : Bystander) (t : SymbolTable) (id : SymbolId) :
    (b.insert t).get (b.shift id) = (t.get id).rename b.shift := by
  simp only [SymbolTable.get, Array.getD_eq_getD_getElem?, ← Array.getElem?_toList, toList_insert,
    getElem?_insertIdx, getElem?_map]
  by_cases h : id < b.position
  · rw [shift_of_lt h, if_pos h]
    cases t.symbols.toList[id]? <;> rfl
  · have hle := Nat.le_of_not_lt h
    rw [shift_of_le hle, if_neg (by omega), if_neg (by omega), Nat.add_sub_cancel]
    cases t.symbols.toList[id]? <;> rfl

/-- The bystander stands where it belongs, if the table is long enough. -/
theorem get_position :
    (b.insert t).get b.position = if b.position ≤ t.size then b.symbol else default := by
  rw [SymbolTable.get, Array.getD_eq_getD_getElem?, ← Array.getElem?_toList, toList_insert,
    getElem?_insertIdx, if_neg (Nat.lt_irrefl _), if_pos rfl, length_map,
    Array.length_toList, ← SymbolTable.size]
  split <;> rfl

theorem read_position {α : Type} (p : Symbol → α) (b : Bystander) (t : SymbolTable)
    (h : p b.symbol = p default) : p ((b.insert t).get b.position) = p default := by
  rw [get_position]
  split
  · exact h
  · rfl

theorem reachable_position : ((b.insert t).get b.position).reachable = false :=
  read_position Symbol.reachable b t b.reachable

theorem exported_position : ((b.insert t).get b.position).exported = false :=
  read_position Symbol.exported b t b.exported

theorem outer_position : ((b.insert t).get b.position).outer = none :=
  read_position Symbol.outer b t b.outer

theorem eq_insert (hsize : t'.size = (b.insert t).size)
    (hposition : t'.get b.position = (b.insert t).get b.position)
    (hget : ∀ id, t'.get (b.shift id) = (t.get id).rename b.shift) : t' = b.insert t := by
  refine eq_of_get hsize fun j _ => ?_
  rcases b.eq_position_or_shift j with rfl | ⟨id, rfl⟩
  · exact hposition
  · rw [hget, get_insert]

/-- **Change.** A change of a symbol is the same change in both tables. -/
theorem modify_insert {f g : Symbol → Symbol}
    (h : g ((t.get id).rename b.shift) = (f (t.get id)).rename b.shift) :
    (b.insert t).modify (b.shift id) g = b.insert (t.modify id f) := by
  refine eq_insert ?_ ?_ fun j => ?_
  · rw [size_modify, size_insert, size_insert, size_modify]
  · rw [get_modify_ne (b.shift_ne_position id).symm, get_position, get_position, size_modify]
  · rw [get_modify, get_modify]
    simp only [shift_inj, shift_lt_size, get_insert]
    split
    · exact h
    · rfl

/-! ## Names -/

/-- Where something is found in a list into which something else is put. -/
theorem findIdx?_insertIdx {α : Type} {p : α → Bool} {a : α} (h : p a = false) (as : List α)
    (n : Nat) :
    (as.insertIdx n a).findIdx? p = (as.findIdx? p).map fun i => if i < n then i else i + 1 := by
  induction n generalizing as with
  | zero => simp [findIdx?_cons, h]
  | succ n ih =>
    cases as with
    | nil => rfl
    | cons x as =>
      rw [insertIdx_succ_cons, findIdx?_cons, findIdx?_cons, ih]
      split
      · simp
      · cases as.findIdx? p with
        | none => rfl
        | some i =>
          simp only [Option.map_some, Nat.add_lt_add_iff_right]
          split <;> rfl

theorem find?_insert {name : String} (h : name ≠ b.symbol.name) (t : SymbolTable) (version : Nat) :
    (b.insert t).find? name version = (t.find? name version).map b.shift := by
  rw [find?_eq_toList, toList_insert, findIdx?_insertIdx (by simp [Ne.symm h]), findIdx?_map,
    find?_eq_toList]
  rfl

theorem insert_push (hle : b.position ≤ t.size) (s : Symbol) :
    (⟨(b.insert t).symbols.push (s.rename b.shift)⟩ : SymbolTable) =
      b.insert ⟨t.symbols.push s⟩ := by
  have hsize (t : SymbolTable) (s : Symbol) :
      (⟨t.symbols.push s⟩ : SymbolTable).size = t.size + 1 := Array.size_push s
  refine eq_insert ?_ ?_ fun id => ?_
  · rw [hsize, size_insert_of_le hle, size_insert_of_le (by rw [hsize]; omega), hsize]
  · rw [get_push, if_neg, get_position, get_position, if_pos hle, if_pos (by rw [hsize]; omega)]
    rw [size_insert_of_le hle]
    exact Nat.ne_of_lt (Nat.lt_succ_of_le hle)
  · -- the new symbol is the last one of both tables
    have hend : b.shift id = (b.insert t).size ↔ id = t.size := by
      rw [size_insert_of_le hle, ← shift_of_le hle, shift_inj]
    rw [get_push, get_push, get_insert]
    simp only [hend]
    split <;> rfl

/-- **Look up.** Any other name leads to the same symbol, which may have to be made. -/
theorem lookup_insert {name : String} (h : name ≠ b.symbol.name) (hle : b.position ≤ t.size)
    (version : Nat) : (b.insert t).lookup name version =
      (b.shift (t.lookup name version).1, b.insert (t.lookup name version).2) := by
  simp only [lookup, find?_insert h]
  cases t.find? name version with
  | some id => rfl
  | none =>
    refine Prod.ext ?_ (insert_push hle { name, version })
    rw [Option.map_none, size_insert_of_le hle]
    exact (shift_of_le hle).symm

/-! ## Loops -/

/-- Positions of the table without the bystander, and those of the same symbols in the table with
it, among which its own may stand. -/
inductive Spliced (b : Bystander) : List SymbolId → List SymbolId → Prop
  | nil : Spliced b [] []
  | here {ids ids' : List SymbolId} (h : Spliced b ids ids') : Spliced b ids (b.position :: ids')
  | cons (id : SymbolId) {ids ids' : List SymbolId} (h : Spliced b ids ids') :
      Spliced b (id :: ids) (b.shift id :: ids')

namespace Spliced

variable {ids ids' : List SymbolId}

theorem append {more more' : List SymbolId} (h : Spliced b ids ids')
    (hmore : Spliced b more more') : Spliced b (ids ++ more) (ids' ++ more') := by
  induction h with
  | nil => exact hmore
  | here _ ih => exact .here ih
  | cons id _ ih => exact .cons id ih

theorem refl (h : ∀ id ∈ ids, id < b.position) : Spliced b ids ids := by
  induction ids with
  | nil => exact .nil
  | cons id ids ih =>
    obtain ⟨hid, hids⟩ := forall_mem_cons.mp h
    have hcons := Spliced.cons id (ih hids)
    rwa [shift_of_lt hid] at hcons

theorem range {n : Nat} (h : b.position ≤ n) : Spliced b (range n) (range (n + 1)) := by
  induction h with
  | refl =>
    have hbefore := (refl (b := b) fun _ => mem_range.mp).append (.here .nil)
    rwa [append_nil, ← range_succ] at hbefore
  | @step n hle ih =>
    rw [range_succ, range_succ (n := n + 1)]
    have hlast := Spliced.cons n (Spliced.nil (b := b))
    rw [shift_of_le hle] at hlast
    exact ih.append hlast

theorem filter (h : Spliced b ids ids') {p p' : SymbolId → Bool} (hhere : p' b.position = false)
    (hshift : ∀ id, p' (b.shift id) = p id) : ids'.filter p' = (ids.filter p).map b.shift := by
  induction h with
  | nil => rfl
  | here _ ih => rw [filter_cons_of_neg (by simp [hhere]), ih]
  | cons id _ ih =>
    rw [filter_cons, filter_cons, hshift, ih]
    split <;> rfl

/-- A loop that passes over the bystander, and does the same for all other symbols. -/
theorem foldl {σ σ' : Type} {f : σ → SymbolId → σ} {f' : σ' → SymbolId → σ'} {R : σ → σ' → Prop}
    (h : Spliced b ids ids') (hhere : ∀ s s', R s s' → R s (f' s' b.position))
    (hshift : ∀ s s' id, R s s' → R (f s id) (f' s' (b.shift id))) {s : σ} {s' : σ'} (hs : R s s') :
    R (ids.foldl f s) (ids'.foldl f' s') := by
  induction h generalizing s s' with
  | nil => exact hs
  | here _ ih => exact ih (hhere s s' hs)
  | cons id _ ih => exact ih (hshift s s' id hs)

theorem foldlM {ε ε' σ σ' : Type} {f : σ → SymbolId → Except ε σ}
    {f' : σ' → SymbolId → Except ε' σ'} {E : ε → ε' → Prop} {R : σ → σ' → Prop}
    (h : Spliced b ids ids') (hhere : ∀ s s', R s s' → f' s' b.position = .ok s')
    (hshift : ∀ s s' id, R s s' → Alike E R (f s id) (f' s' (b.shift id))) {s : σ} {s' : σ'}
    (hs : R s s') : Alike E R (ids.foldlM f s) (ids'.foldlM f' s') := by
  induction h generalizing s s' with
  | nil => exact .ok hs
  | here _ ih =>
    rw [foldlM_cons, hhere s s' hs]
    exact ih hs
  | cons id _ ih =>
    exact (hshift s s' id hs).bind fun _ _ => ih

end Spliced

theorem spliced_ids (h : b.position ≤ t.size) : Spliced b t.ids (b.insert t).ids := by
  rw [ids, ids, size_insert_of_le h]
  exact .range h

theorem exported_insert (h : b.position ≤ t.size) :
    (b.insert t).exported = t.exported.map b.shift := by
  refine (spliced_ids h).filter ?_ fun id => ?_
  · rw [exported_position, Bool.false_and]
  · rw [get_insert, Symbol.rename_exported, Symbol.isDefined_rename]

/-! ## Containment -/

theorem walkOut_insert (b : Bystander) (t : SymbolTable) (steps id offset : Nat) :
    (b.insert t).walkOut steps (b.shift id) offset =
      (b.shift (t.walkOut steps id offset).1, (t.walkOut steps id offset).2) := by
  induction steps generalizing id offset with
  | zero => rfl
  | succ steps ih =>
    simp only [walkOut, get_insert, Symbol.rename]
    cases (t.get id).outer with
    | none => rfl
    | some c => exact ih c.symbol _

theorem liesWithin_insert (b : Bystander) (t : SymbolTable) (target steps id : Nat) :
    (b.insert t).liesWithin (b.shift target) steps (b.shift id) = t.liesWithin target steps id := by
  induction steps generalizing id with
  | zero => rfl
  | succ steps ih =>
    simp only [liesWithin, get_insert, Symbol.rename, shift_inj]
    cases (t.get id).outer with
    | none => rfl
    | some c => exact congrArg _ (ih c.symbol)

end Bystander

namespace SymbolTable

variable {t t' : SymbolTable} {id : SymbolId}

/-- Every way outward ends within as many steps as there are symbols. -/
def Rooted (t : SymbolTable) : Prop := ∀ id, (t.get (t.outermost id).1).outer = none

theorem Forest.rooted {links : List PendingLink} (h : Forest links t) : t.Rooted :=
  fun id => (h.outermost id).2

/-- A way that has ended goes no further. -/
theorem walkOut_succ {steps offset : Nat} (h : (t.get (t.walkOut steps id offset).1).outer = none) :
    t.walkOut (steps + 1) id offset = t.walkOut steps id offset := by
  induction steps generalizing id offset with
  | zero =>
    have hid : (t.get id).outer = none := h
    simp only [walkOut, hid]
  | succ steps ih =>
    cases houter : (t.get id).outer with
    | none => simp only [walkOut, houter]
    | some c =>
      simp only [walkOut, houter] at h ⊢
      exact ih h

/-- Links that stay still end, whatever comes to the table. -/
theorem Rooted.grown (h : t.Rooted) (hsize : t.size ≤ t'.size)
    (houter : ∀ id, (t'.get id).outer = (t.get id).outer) : t'.Rooted := by
  have hwalk (steps id offset : Nat) : t'.walkOut steps id offset = t.walkOut steps id offset := by
    induction steps generalizing id offset with
    | zero => rfl
    | succ steps ih =>
      simp only [walkOut, houter]
      split
      · exact ih _ _
      · rfl
  -- a longer table allows more steps, but there is nowhere to go
  have hmore {steps : Nat} (id : SymbolId) (hsteps : t.size ≤ steps) :
      t.walkOut steps id 0 = t.outermost id := by
    induction hsteps with
    | refl => rfl
    | step _ ih => rw [walkOut_succ (by rw [ih]; exact h id), ih]
  intro id
  rw [outermost, hwalk, hmore id hsize, houter]
  exact h id

end SymbolTable

namespace Bystander

open SymbolTable

variable {b : Bystander} {t t' : SymbolTable}

/-- The table is long enough for the bystander, and every way outward ends in it. -/
structure Suits (b : Bystander) (t : SymbolTable) : Prop where
  le : b.position ≤ t.size
  rooted : t.Rooted

theorem Suits.keeps (h : b.Suits t) (hkeeps : Keeps (·.outer) t t') : b.Suits t' :=
  ⟨hkeeps.1.symm ▸ h.le, h.rooted.grown (Nat.le_of_eq hkeeps.1.symm) hkeeps.2⟩

theorem Suits.lookup (h : b.Suits t) (name : String) (version : Nat) :
    b.Suits (t.lookup name version).2 := by
  have hsize := (Quiet.lookup t name version).size
  exact ⟨Nat.le_trans h.le hsize,
    h.rooted.grown hsize (read_lookup Symbol.outer (fun _ _ => rfl) t name version)⟩

/-- A table that suits the bystander, and the table with it. -/
def Follows (b : Bystander) (t t' : SymbolTable) : Prop := t' = b.insert t ∧ b.Suits t

/-- **Outermost.** The same symbol contains a symbol at the same place. -/
theorem outermost_insert (h : b.Suits t) (id : Nat) :
    (b.insert t).outermost (b.shift id) = (b.shift (t.outermost id).1, (t.outermost id).2) := by
  rw [outermost, size_insert_of_le h.le, walkOut_insert, walkOut_succ (h.rooted id)]
  rfl

end Bystander

end ArmLink
