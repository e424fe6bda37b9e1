import ArmLink.Image.Symbols
import ArmLink.Proofs.SymbolTable

/-!
# The listed symbols

The symbol table of a file lists every symbol that is kept and has a place, once, and those that
only their own file sees before the others.
-/

namespace ArmLink.Image

open Elf SymbolTable List

variable {t : SymbolTable} {l : Layout} {external : Bool} {names : StringTable} {x : Listed}
  {id : SymbolId} {ids : List SymbolId} {place : Nat × Nat}

/-! ## What is listed of a symbol -/

/-- The section that a symbol lies in: that of the outermost symbol around it. -/
def sectionOf? (t : SymbolTable) (id : SymbolId) : Option SectionId :=
  (t.get (t.outermost id).1).sectionId

/-- Symbols of these kinds are defined elsewhere. -/
def isElsewhere : SymbolKind → Bool
  | .dynamicImport | .hostObject => true
  | _ => false

/-- Whether a symbol is listed with its section: if it is defined, not elsewhere nor as a constant,
and is no table that the linker makes. -/
def isSectioned (s : Symbol) : Bool :=
  s.isDefined && match s.kind with
  | .dynamicImport | .hostObject | .constant => false
  | .codeTable | .readOnlyTable | .writableTable => false
  | _ => true

/-- The value that is listed for a symbol, and the index of its section. -/
inductive PlacedAt (t : SymbolTable) (l : Layout) (external : Bool) (id : SymbolId) :
    Nat × Nat → Prop where
  | elsewhere (hkind : isElsewhere (t.get id).kind = true) (hexternal : external = true) :
    PlacedAt t l external id (0, SymbolEntry.undefinedIndex)
  | absolute (hkind : (t.get id).kind = .constant) :
    PlacedAt t l external id ((t.get id).value.getD 0, SymbolEntry.absoluteIndex)
  /-- any other symbol has its address; for a host linker, its offset in the section that it lies
  in, or in the block of thread-local data -/
  | inSection {value : Nat} {i : SectionId} (hkind : isSectioned (t.get id) = true)
    (hvalue : (t.get id).value = some value) (hsection : sectionOf? t id = some i) :
    PlacedAt t l external id
      (if external ∧ (t.get id).kind ≠ .tlsBss then Word64.minus value (l.getSection i).address
        else value,
        (l.getSection i).elfIndex)

theorem placedAt_of_placeOf? (h : placeOf? t l external id = some place) :
    PlacedAt t l external id place := by
  have helsewhere (hkind : isElsewhere (t.get id).kind = true)
      (h : (if external then some (0, SymbolEntry.undefinedIndex) else none) = some place) :
      PlacedAt t l external id place := by
    split at h
    · rename_i hexternal
      cases h
      exact .elsewhere hkind hexternal
    · cases h
  unfold placeOf? at h
  dsimp only at h
  split at h
  case h_1 | h_2 | h_3 => cases h
  case h_4 | h_5 =>
    rename_i hkind
    exact helsewhere (by rw [hkind]; rfl) h
  case h_6 =>
    rename_i hkind
    cases h
    exact .absolute hkind
  case h_7 =>
    split at h
    · cases h
    · rename_i hcode hread hwrite himport hhost hconstant hdefined
      split at h
      · rename_i value i hvalue hsection
        cases h
        refine .inSection ?_ hvalue hsection
        revert hcode hread hwrite himport hhost hconstant hdefined
        unfold isSectioned Symbol.isDefined
        cases (t.get id).kind <;> simp
      · cases h

theorem placeOf?_of_placedAt (h : PlacedAt t l external id place) :
    placeOf? t l external id = some place := by
  cases h with
  | elsewhere hkind hexternal =>
    cases hof : (t.get id).kind <;> rw [hof] at hkind
    case dynamicImport | hostObject => simp only [placeOf?, hof, hexternal, if_true]
    all_goals cases hkind
  | absolute hkind => simp only [placeOf?, hkind]
  | inSection hkind hvalue hsection =>
    unfold isSectioned Symbol.isDefined at hkind
    unfold placeOf?
    dsimp only
    split
    case h_7 =>
      rw [if_neg fun hnot => ?_]
      · rw [sectionOf?] at hsection
        rw [hvalue, hsection]
      · simp_all
    all_goals
      rename_i hnot
      rw [hnot] at hkind
      simp at hkind

/-! ## Entries -/

/-- The entry says of its symbol what there is to say. -/
structure Lists (t : SymbolTable) (l : Layout) (external : Bool) (x : Listed) : Prop where
  reachable : (t.get x.symbol).reachable = true
  place : placeOf? t l external x.symbol = some (x.entry.value, x.entry.sectionIndex)
  size : x.entry.size = (t.get x.symbol).size
  isGlobal : x.entry.isGlobal = !(t.get x.symbol).isLocal

/-- Whether a symbol is listed. -/
def isListed (t : SymbolTable) (l : Layout) (external : Bool) (id : SymbolId) : Bool :=
  (t.get id).reachable && (placeOf? t l external id).isSome

theorem isListed_iff : isListed t l external id = true ↔
    (t.get id).reachable = true ∧ ∃ place, PlacedAt t l external id place := by
  rw [isListed, Bool.and_eq_true, Option.isSome_iff_exists]
  refine and_congr_right fun _ => exists_congr fun place => ?_
  exact ⟨placedAt_of_placeOf?, placeOf?_of_placedAt⟩

theorem entryOf_cases (t : SymbolTable) (l : Layout) (external : Bool) (names : StringTable)
    (id : SymbolId) :
    (isListed t l external id = false ∧ (entryOf t l external names id).1 = none) ∨
      (isListed t l external id = true ∧ ∃ x, (entryOf t l external names id).1 = some x ∧
        x.symbol = id ∧ Lists t l external x) := by
  unfold isListed
  cases hreach : (t.get id).reachable with
  | false => exact .inl ⟨rfl, by simp only [entryOf, hreach, Bool.false_eq_true, if_false]⟩
  | true =>
    cases hplace : placeOf? t l external id with
    | none => exact .inl ⟨rfl, by simp only [entryOf, hreach, hplace, if_true]⟩
    | some place =>
      let entry : SymbolEntry :=
        { name := (names.addString (t.get id).name).1, value := place.1, size := (t.get id).size,
          isGlobal := !(t.get id).isLocal, type := typeOf (t.get id).kind,
          sectionIndex := place.2 }
      have hentry : (entryOf t l external names id).1 = some ⟨id, entry⟩ := by
        simp only [entryOf, hreach, hplace, if_true, entry]
      exact .inr ⟨rfl, ⟨id, entry⟩, hentry, rfl, hreach, hplace, rfl, rfl⟩

theorem lists_of_mem_entries (h : x ∈ (entries t l external ids names).1) :
    Lists t l external x := by
  induction ids generalizing names with
  | nil => cases h
  | cons id ids ih =>
    simp only [entries, mem_append, Option.mem_toList] at h
    rcases h with h | h
    · rcases entryOf_cases t l external names id with ⟨-, hnone⟩ | ⟨-, x', hsome, -, hlists⟩
      · rw [hnone] at h
        cases h
      · rw [hsome] at h
        cases h
        exact hlists
    · exact ih h

theorem mem_listed (h : x ∈ (listed t l external).1) :
    x ∈ (entries t l external t.ids .empty).1 := by
  simp only [listed, mem_append, mem_filter] at h
  rcases h with h | h <;> exact h.1

theorem lists_of_mem_listed (h : x ∈ (listed t l external).1) : Lists t l external x :=
  lists_of_mem_entries (mem_listed h)

variable (t l external)

variable {t l external}

end ArmLink.Image
