import ArmLink.Proofs.Dynamic.Steps

/-!
# Entries for words that move with the output

The loader is asked to adjust the words that hold addresses, one entry for each of them. The symbols
are gone through one after the other while the table of entries grows; but that table is not gone
through itself, and entries change nothing that is read of other symbols. So the entries are those
of the words that were there at the start.
-/

namespace ArmLink.DynamicTables

open SymbolTable List Elf.RelocationType

variable {d d' : DynamicTables} {t t' : SymbolTable} {id : SymbolId}
  {x : SymbolId × Relocation SymbolId} {s : DynamicTables × SymbolTable}
  {xs : List (SymbolId × Relocation SymbolId)}

/-! ## Words that hold an address -/

/-- All relocations with their owners, in the order of symbols and then of relocations. -/
def ownedRelocations (t : SymbolTable) : List (SymbolId × Relocation SymbolId) :=
  t.ids.flatMap fun id => (t.get id).relocations.map (id, ·)

/-- A relocation fills a word with an address that moves with the output. Tables whose addresses the
loader adjusts by itself do not count. -/
structure Moves (d : DynamicTables) (t : SymbolTable) (x : SymbolId × Relocation SymbolId) :
    Prop where
  reachable : (t.get x.1).reachable = true
  placed : (t.get x.1).kind.isPlaced = true
  owner : x.1 ∉ [d.dynSym, d.rel, d.relPlt, d.gotPlt, d.dynamic]
  size : x.2.size = 4
  /-- with the address of something that has a place, or that the linker defines -/
  address : ∃ target addend, x.2.outcome = .pending .absolute (some target) addend ∧
    ((t.get (t.outermost target).1).kind.isPlaced = true ∨
      (t.get (t.outermost target).1).special = true)

theorem isRelativeSite_iff {r : Relocation SymbolId} : isRelativeSite t r = true ↔
    r.size = 4 ∧ ∃ target addend, r.outcome = .pending .absolute (some target) addend ∧
      ((t.get (t.outermost target).1).kind.isPlaced = true ∨
        (t.get (t.outermost target).1).special = true) := by
  simp only [isRelativeSite]
  split
  · rename_i target addend houtcome
    simp [houtcome]
  · rename_i hother
    constructor
    · intro h
      cases h
    · rintro ⟨-, target, addend, houtcome, -⟩
      exact absurd houtcome (hother target addend)

/-- Whether the words of a symbol are gone through. -/
def isSearched (d : DynamicTables) (t : SymbolTable) (id : SymbolId) : Bool :=
  (t.get id).reachable && (t.get id).kind.isPlaced && !d.exempt.contains id

theorem moves_iff : Moves d t x ↔ d.isSearched t x.1 = true ∧ isRelativeSite t x.2 = true := by
  simp only [isSearched, exempt, isRelativeSite_iff, Bool.and_eq_true, Bool.not_eq_true',
    contains_eq_mem, decide_eq_false_iff_not]
  constructor
  · rintro ⟨hreach, hplaced, howner, hsize, haddress⟩
    exact ⟨⟨⟨hreach, hplaced⟩, howner⟩, hsize, haddress⟩
  · rintro ⟨⟨⟨hreach, hplaced⟩, howner⟩, hsize, haddress⟩
    exact ⟨hreach, hplaced, howner, hsize, haddress⟩

instance (d : DynamicTables) (t : SymbolTable) : DecidablePred (Moves d t) := fun _ =>
  decidable_of_iff _ moves_iff.symm

/-- The words that hold an address, in the order of symbols and then of relocations. -/
def movingWords (d : DynamicTables) (t : SymbolTable) : List (SymbolId × Relocation SymbolId) :=
  (ownedRelocations t).filter fun x => Moves d t x

theorem mem_movingWords : x ∈ movingWords d t ↔ x.2 ∈ (t.get x.1).relocations ∧ Moves d t x := by
  obtain ⟨id, r⟩ := x
  simp only [movingWords, ownedRelocations, mem_filter, mem_flatMap, mem_map,
    decide_eq_true_eq]
  refine and_congr_left fun hmoves => ⟨?_, fun hr => ?_⟩
  · rintro ⟨id', -, r', hr', heq⟩
    cases heq
    exact hr'
  · have hlt : id < t.size := lt_size_of_get (P := (·.reachable = true)) hmoves.reachable nofun
    exact ⟨id, mem_ids.mpr hlt, r, hr, rfl⟩

/-- **Slots.** The slot of a symbol of the output is a word that holds an address, if the symbol has
a place, or lies within what has one, or is defined by the linker. -/
theorem slot_mem_movingWords {slot : Nat} (h : Reached d t)
    (himport : (t.get id).isImport = false) (hslot : (t.get id).gotOffset = some slot)
    (haddress : (t.get (t.outermost id).1).kind.isPlaced = true ∨
      (t.get (t.outermost id).1).special = true) :
    (d.got, slotWord id slot) ∈ movingWords d t := by
  have hready := h.ready d.got (by simp [all])
  simp only [isReady, Bool.and_eq_true] at hready
  refine mem_movingWords.mpr ⟨h.slotsPatched id slot himport hslot, ?_⟩
  exact ⟨hready.1.1, hready.1.2, not_mem_of_all h.tables.1 3 rfl (by simp [all]), rfl, id, 0, rfl,
    haddress⟩

theorem relativeSites_eq (d : DynamicTables) (t : SymbolTable) (id : SymbolId) :
    d.relativeSites t id =
      ((t.get id).relocations.filter fun r => Moves d t (id, r)).map (·.offset) := by
  simp only [moves_iff]
  cases hsearched : d.isSearched t id with
  | true =>
    simp only [true_and, Bool.decide_eq_true]
    exact if_pos hsearched
  | false =>
    simp only [Bool.false_eq_true, false_and, decide_false, filter_false, map_nil]
    exact if_neg (Bool.eq_false_iff.mp hsearched)

/-! ## One entry after the other -/

/-- Asks the loader to adjust a word. -/
def askRelative (s : DynamicTables × SymbolTable) (x : SymbolId × Relocation SymbolId) :
    DynamicTables × SymbolTable :=
  s.1.addRelocation s.2 x.1 x.2.offset 0 relative

/-- From `(d, t)` to `s` the loader was only asked to adjust words. -/
structure Asked (d : DynamicTables) (t : SymbolTable) (s : DynamicTables × SymbolTable) : Prop where
  all : s.1.all = d.all
  shell : Keeps shell t s.2
  other : ∀ id, id ≠ d.rel → s.2.get id = t.get id

theorem Asked.step (h : Asked d t s) (x : SymbolId × Relocation SymbolId) :
    Asked d t (askRelative s x) := by
  have hrel := rel_eq_of_all h.all
  have hgrows := grows_addRelocation [] s.1 s.2 x.1 x.2.offset 0 relative
  refine ⟨hgrows.all.trans h.all, h.shell.trans hgrows.shell, fun id hid => ?_⟩
  exact (get_modify_ne (hrel.symm ▸ hid)).trans (h.other id hid)

theorem Asked.foldl (h : Asked d t s) (xs : List (SymbolId × Relocation SymbolId)) :
    Asked d t (xs.foldl askRelative s) :=
  foldl_induction h fun _ x _ hs => hs.step x

theorem exempt_eq_of_all (h : d'.all = d.all) : d'.exempt = d.exempt := by
  simp only [DynamicTables.all, cons.injEq] at h
  simp [exempt, h]

/-- Entries do not change which words move. -/
theorem Asked.relativeSites_eq (h : Asked d t s) (id : SymbolId) :
    s.1.relativeSites s.2 id = d.relativeSites t id := by
  have hexempt := exempt_eq_of_all h.all
  by_cases hid : id = d.rel
  · -- the table of the entries is not gone through
    have hmem : d.exempt.contains d.rel = true := by simp [exempt]
    simp only [relativeSites, hexempt, hid, hmem, Bool.not_true, Bool.and_false]
    rfl
  · have hsite (r : Relocation SymbolId) : isRelativeSite s.2 r = isRelativeSite t r := by
      have houter (target : SymbolId) : s.2.outermost target = t.outermost target :=
        (h.shell.map Symbol.outer).outermost target
      have hkind := (h.shell.read Symbol.kind fun _ => rfl).2
      have hspecial := (h.shell.read Symbol.special fun _ => rfl).2
      simp only [isRelativeSite, houter, hkind, hspecial]
    have hsites : isRelativeSite s.2 = isRelativeSite t := funext hsite
    simp only [relativeSites, hexempt, h.other id hid, hsites]

/-- The loop over symbols asks for the words that moved at the start. -/
theorem Asked.foldl_relativeSites (h : Asked d t s) (ids : List SymbolId) :
    ids.foldl (fun s id => (s.1.relativeSites s.2 id).foldl
        (fun s offset => s.1.addRelocation s.2 id offset 0 relative) s) s =
      (ids.flatMap fun id => ((t.get id).relocations.map (id, ·)).filter fun x =>
        Moves d t x).foldl askRelative s := by
  induction ids generalizing s with
  | nil => rfl
  | cons id ids ih =>
    have hfirst : (s.1.relativeSites s.2 id).foldl
        (fun s offset => s.1.addRelocation s.2 id offset 0 relative) s =
        (((t.get id).relocations.map (id, ·)).filter fun x => Moves d t x).foldl askRelative s := by
      rw [h.relativeSites_eq, DynamicTables.relativeSites_eq, foldl_map, filter_map,
        foldl_map]
      rfl
    rw [foldl_cons, hfirst, ih (h.foldl _), flatMap_cons, foldl_append]

/-- The loader is asked to adjust the words that hold an address, one after the other. -/
theorem addRelative_eq : d.addRelative t = (movingWords d t).foldl askRelative (d, t) := by
  have hasked : Asked d t (d, t) := ⟨rfl, .refl t, fun _ _ => rfl⟩
  rw [movingWords, ownedRelocations, filter_flatMap]
  exact hasked.foldl_relativeSites t.ids

/-! ## The entries -/

/-- The bytes of an entry before the address of its word is known: the symbol is the null symbol. -/
def relativeBytes : Bytes :=
  Bytes.ofWord 0 ++ Bytes.ofWord (info 0 (.ofNat 32 relative))

/-- The relocations of entries from an offset on: each entry starts with the address of its word. -/
def relativePatches (start : Nat) (xs : List (SymbolId × Relocation SymbolId)) :
    List (Relocation SymbolId) :=
  xs.mapIdx fun k x => .pending (start + 8 * k) 4 .absolute (some x.1) (.ofNat 64 x.2.offset)

/-- A table with entries at its end. -/
def withEntries (s : Symbol) (xs : List (SymbolId × Relocation SymbolId)) : Symbol :=
  { s with
    data := s.data ++ xs.flatMap fun _ => relativeBytes
    size := s.data.length + 8 * xs.length
    relocations := s.relocations ++ relativePatches s.data.length xs }

/-- A table with one entry at its end. -/
def appendRelative (s : Symbol) (x : SymbolId × Relocation SymbolId) : Symbol :=
  (s.appendPatched .absolute x.1 (.ofNat 64 x.2.offset)).appendWord
    (info 0 (.ofNat 32 relative))

theorem withEntries_nil {s : Symbol} (h : s.size = s.data.length) : withEntries s [] = s := by
  simp [withEntries, relativePatches, ← h]

theorem relativePatches_cons {start : Nat} : relativePatches start (x :: xs) =
      .pending start 4 .absolute (some x.1) (.ofNat 64 x.2.offset) ::
        relativePatches (start + 8) xs := by
  have hnext (k : Nat) : start + 8 * (k + 1) = start + 8 + 8 * k := by omega
  simp only [relativePatches, mapIdx_cons, Nat.mul_zero, Nat.add_zero, hnext]

theorem withEntries_cons {s : Symbol} :
    withEntries (appendRelative s x) xs = withEntries s (x :: xs) := by
  have hdata : (appendRelative s x).data = s.data ++ relativeBytes := append_assoc ..
  have hrelocations : (appendRelative s x).relocations =
      s.relocations ++ [.pending s.data.length 4 .absolute (some x.1) (.ofNat 64 x.2.offset)] := rfl
  have hlength : (s.data ++ relativeBytes).length = s.data.length + 8 := by simp [relativeBytes]
  have hsize : s.data.length + 8 + 8 * xs.length = s.data.length + 8 * (xs.length + 1) := by omega
  simp only [withEntries, hdata, hlength, hrelocations, hsize, relativePatches_cons,
    flatMap_cons, length_cons, append_assoc, singleton_append]
  rfl

theorem foldl_appendRelative {s : Symbol} (h : s.size = s.data.length)
    (xs : List (SymbolId × Relocation SymbolId)) :
    xs.foldl appendRelative s = withEntries s xs := by
  induction xs generalizing s with
  | nil => exact (withEntries_nil h).symm
  | cons x xs ih =>
    have hsize : (appendRelative s x).size = (appendRelative s x).data.length := size_appendWord ..
    rw [foldl_cons, ih hsize, withEntries_cons]

theorem get_foldl_askRelative (hlt : d.rel < t.size) (xs : List (SymbolId × Relocation SymbolId)) :
    (xs.foldl askRelative (d, t)).2.get d.rel = xs.foldl appendRelative (t.get d.rel) := by
  induction xs generalizing d t with
  | nil => rfl
  | cons x xs ih =>
    have hself : (askRelative (d, t) x).2.get d.rel = appendRelative (t.get d.rel) x :=
      get_modify_self hlt
    have hlt' : (askRelative (d, t) x).1.rel < (askRelative (d, t) x).2.size := by
      simpa [askRelative, addRelocation, appendRel] using hlt
    rw [foldl_cons, foldl_cons, ← hself]
    exact ih hlt'

/-- **Entries.** Each word that holds an address gets one entry at the end of the table, in order,
and nothing else changes. -/
theorem addRelative_spec (h : Reached d t) (hadd : d.addRelative t = (d', t')) :
    d'.all = d.all ∧ Keeps shell t t' ∧ (∀ id, id ≠ d.rel → t'.get id = t.get id) ∧
      t'.get d.rel = withEntries (t.get d.rel) (movingWords d t) := by
  have hasked : Asked d t (d, t) := ⟨rfl, .refl t, fun _ _ => rfl⟩
  have hlt := h.tables.2 d.rel (by simp [all])
  rw [addRelative_eq] at hadd
  have hdone := hasked.foldl (movingWords d t)
  have hrel := get_foldl_askRelative hlt (movingWords d t)
  rw [hadd] at hdone hrel
  refine ⟨hdone.all, hdone.shell, hdone.other, hrel.trans ?_⟩
  exact foldl_appendRelative h.isBounded_rel.1 _

end ArmLink.DynamicTables
