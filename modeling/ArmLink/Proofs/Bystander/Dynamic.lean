import ArmLink.Proofs.Bystander.Collect
import ArmLink.Proofs.Dynamic.Steps

/-!
# The dynamic loader's tables besides a bystander

The dynamic loader is told nothing about a bystander, and relocations of a bystander are not
lowered. So the tables hold the same bytes whether or not it is there, and the same relocations up
to positions.
-/

namespace ArmLink

open SymbolTable DynamicTables List

variable {offset owner : Nat} {t' : SymbolTable} {r : Relocation SymbolId}
  {d? : Option DynamicTables}

/-! ## Ends of tables -/

namespace Symbol

variable (f : SymbolId → SymbolId) (s : Symbol)

@[simp] theorem append_rename (bytes : Bytes) :
    (s.rename f).append bytes = (s.append bytes).rename f := rfl

@[simp] theorem appendWord_rename {w : Word} :
    (s.rename f).appendWord w = (s.appendWord w).rename f := rfl

theorem addPatch_rename (r : Relocation SymbolId) :
    { s.rename f with relocations := (s.rename f).relocations ++ [r.map f] } =
      { s with relocations := s.relocations ++ [r] }.rename f := by
  simp only [rename, map_append, map_singleton]

@[simp] theorem appendPatched_rename {kind : Relocation.Kind} {target : SymbolId}
    {addend : Word64} : (s.rename f).appendPatched kind (f target) addend =
      (s.appendPatched kind target addend).rename f :=
  addPatch_rename f (s.appendWord 0) (.pending s.data.length 4 kind (some target) addend)

theorem foldl_appendWord_rename {words : List Word} :
    words.foldl appendWord (s.rename f) = (words.foldl appendWord s).rename f :=
  foldl_hom (rename f) fun _ _ => rfl

end Symbol

@[simps] def DynamicTables.rename (f : SymbolId → SymbolId) (d : DynamicTables) : DynamicTables :=
  { d with
    dynSym := f d.dynSym, dynStr := f d.dynStr, hash := f d.hash, rel := f d.rel
    relPlt := f d.relPlt, plt := f d.plt, got := f d.got, gotPlt := f d.gotPlt
    dynamic := f d.dynamic }

namespace DynamicTables

def tableNames : List String :=
  open Elf in
  [SectionName.dynSym, SectionName.dynStr, SectionName.rel, SectionName.got, SectionName.hash,
   SectionName.gotPlt, SectionName.plt, SectionName.relPlt, SectionName.dynamic]

variable (f : SymbolId → SymbolId) (d : DynamicTables)

theorem all_rename : (d.rename f).all = d.all.map f := rfl

theorem exempt_rename : (d.rename f).exempt = d.exempt.map f := rfl

theorem appendEntry_rename (entry : Symbol) (id : SymbolId) (s : Symbol) (offset : Nat) :
    appendEntry (entry.rename f) (f id) (s.rename f) offset =
      (appendEntry entry id s offset).rename f := by
  cases himport : s.isImport with
  | true => simp [appendEntry, himport]
  | false =>
    simp only [appendEntry, Symbol.isImport_rename, himport, Bool.false_eq_true, if_false,
      Symbol.appendWord_rename, Symbol.appendPatched_rename, Symbol.append_rename]
    exact Symbol.addPatch_rename f _ (.pending _ 2 .sectionIndex (some id) 0)

/-- The entry, with another position for its table. -/
def Entry.rename (f : SymbolId → SymbolId) : Entry → Entry
  | number tag value => .number tag value
  | address tag table => .address tag (f table)
  | size tag table => .size tag (f table)

theorem Entry.append_rename (s : Symbol) (e : Entry) :
    (e.rename f).append (s.rename f) = (e.append s).rename f := by
  cases e with
  | number tag value => rfl
  | address tag table => simp [Entry.rename, Entry.append]
  | size tag table => simp [Entry.rename, Entry.append]

theorem entries_rename {runPath : Option Nat} :
    (d.rename f).entries runPath = (d.entries runPath).map (Entry.rename f) := by
  have hnumbers (tag : Nat) (values : List Nat) :
      values.map (Entry.number tag) = (values.map (Entry.number tag)).map (Entry.rename f) := by
    rw [map_map]
    rfl
  have hrunPath : (runPath.map (Entry.number 29)).toList =
      (runPath.map (Entry.number 29)).toList.map (Entry.rename f) := by
    cases runPath <;> rfl
  simp only [entries, map_append]
  rw [← hnumbers, ← hrunPath, apply_ite (map (Entry.rename f))]
  rfl

end DynamicTables

namespace Bystander

variable {b : Bystander} {d : DynamicTables} {t : SymbolTable} {id : Nat}

variable (b)

/-- Tables and symbols as they are with the bystander. -/
def carry (s : DynamicTables × SymbolTable) : DynamicTables × SymbolTable :=
  (s.1.rename b.shift, b.insert s.2)

/-! ## Entries -/

theorem addName_carry (d : DynamicTables) (t : SymbolTable) (name : String) :
    (d.rename b.shift).addName (b.insert t) name =
      ((d.addName t name).1, b.carry (d.addName t name).2) := by
  simp only [addName, rename_nameOffsets, rename_dynStr, get_insert, Symbol.rename_data]
  cases d.nameOffsets.lookup name with
  | some offset => rfl
  | none =>
    rw [modify_insert (f := fun s => (s.append (Bytes.ofString name)).append [0]) rfl]
    rfl

theorem addNeeded_carry (d : DynamicTables) (t : SymbolTable) (library : String) :
    (d.rename b.shift).addNeeded (b.insert t) library = b.carry (d.addNeeded t library) := by
  have hname := b.addName_carry { d with neededNames := library :: d.neededNames } t library
  simp only [addNeeded, rename_neededNames]
  split
  · rfl
  · exact congrArg (fun r : Nat × DynamicTables × SymbolTable =>
      ({ r.2.1 with needed := r.2.1.needed ++ [r.1] }, r.2.2)) hname

theorem addLibrary_carry (d : DynamicTables) (t : SymbolTable) (library : Option String) :
    (d.rename b.shift).addLibrary (b.insert t) library = b.carry (d.addLibrary t library) := by
  cases library with
  | none => rfl
  | some library => exact b.addNeeded_carry d t library

theorem enter_carry {b : Bystander} {index : Nat} :
    (d.rename b.shift).enter (b.insert t) (b.shift id) offset index =
      b.insert (d.enter t id offset index) := by
  simp only [enter, rename_dynSym, get_insert]
  rw [modify_insert (f := fun entry => appendEntry entry id (t.get id) offset)
    (appendEntry_rename b.shift _ id _ offset), modify_insert]
  rfl

/-- **Dynamic symbols.** The same symbol gets the same index. -/
theorem ensureIndex_carry (d : DynamicTables) (t : SymbolTable) (id : Nat) :
    (d.rename b.shift).ensureIndex (b.insert t) (b.shift id) =
      ((d.ensureIndex t id).1, b.carry (d.ensureIndex t id).2) := by
  cases hindex : (t.get id).dynamicIndex with
  | some index => simp only [ensureIndex, get_insert, Symbol.rename_dynamicIndex, hindex, carry]
  | none =>
    have hadd := b.addName_carry { d with count := d.count + 1 } t (t.get id).dynamicName
    rcases hname : addName { d with count := d.count + 1 } t (t.get id).dynamicName with
      ⟨offset, d₁, t₁⟩
    rw [hname] at hadd
    have hindex' : ((b.insert t).get (b.shift id)).dynamicIndex = none := by
      rw [get_insert]
      exact hindex
    have hname' : addName { d.rename b.shift with count := d.count + 1 } (b.insert t)
        ((b.insert t).get (b.shift id)).dynamicName = (offset, d₁.rename b.shift, b.insert t₁) := by
      rw [get_insert]
      exact hadd
    rw [ensureIndex_of_none hindex hname, ensureIndex_of_none hindex' hname', enter_carry,
      get_insert]
    exact congrArg _ (b.addLibrary_carry d₁ _ (libraryOf (t₁.get id)))

theorem appendRel_insert {b : Bystander} {table : Nat} {index type : Nat} :
    appendRel (b.shift table) (b.insert t) (b.shift owner) offset index type =
      b.insert (appendRel table t owner offset index type) := by
  refine modify_insert ?_
  rw [Symbol.appendPatched_rename, Symbol.appendWord_rename]

theorem addRelocation_carry (d : DynamicTables) (t : SymbolTable) (owner : Nat)
    (offset index type : Nat) :
    (d.rename b.shift).addRelocation (b.insert t) (b.shift owner) offset index type =
      b.carry (d.addRelocation t owner offset index type) := by
  simp only [addRelocation, get_insert, Symbol.rename_kind, rename_rel, appendRel_insert]
  rfl

variable {b}

/-- **Stubs.** The same import gets the same stub. -/
theorem ensureStub_carry : (d.rename b.shift).ensureStub (b.insert t) (b.shift id) =
      ((d.ensureStub t id).1, b.carry (d.ensureStub t id).2) := by
  simp only [ensureStub, get_insert, Symbol.rename_pltOffset, ensureIndex_carry]
  cases (t.get id).pltOffset with
  | some stub => rfl
  | none =>
    rcases d.ensureIndex t id with ⟨index, d, t⟩
    simp only [carry, rename_gotPlt, rename_plt, rename_relPlt, get_insert, Symbol.rename_data]
    rw [modify_insert (f := fun s => s.appendPatched .absolute d.plt 0) (by simp)]
    simp only [get_insert, Symbol.rename_size]
    let addend : Word64 := .ofInt 64 (((t.get d.gotPlt).data.length : Int) - 8)
    rw [modify_insert (f := fun s => ((s.appendPatched .plt0 d.gotPlt addend).appendPatched
      .plt1 d.gotPlt addend).appendPatched .plt2 d.gotPlt addend) (by simp [addend]),
      appendRel_insert, modify_insert]
    rfl

/-- **Slots.** The same symbol gets the same slot. -/
theorem ensureSlot_carry : (d.rename b.shift).ensureSlot (b.insert t) (b.shift id) =
      ((d.ensureSlot t id).1, b.carry (d.ensureSlot t id).2) := by
  simp only [ensureSlot, get_insert, Symbol.rename_gotOffset, Symbol.isImport_rename,
    ensureIndex_carry, rename_got, Symbol.rename_data]
  cases (t.get id).gotOffset with
  | some slot => rfl
  | none =>
    cases (t.get id).isImport with
    | true =>
      rcases d.ensureIndex t id with ⟨index, d, t⟩
      simp only [carry, rename_got, rename_rel, get_insert, Symbol.rename_data, if_true]
      rw [modify_insert (f := fun s => s.appendWord 0) rfl, appendRel_insert, modify_insert]
      rfl
    | false =>
      rw [modify_insert (f := fun s => s.appendPatched .absolute id 0) (by simp), modify_insert]
      · rfl
      · rfl

theorem exportSymbols_carry (hle : b.position ≤ t.size) (d : DynamicTables) :
    (d.rename b.shift).exportSymbols (b.insert t) = b.carry (d.exportSymbols t) := by
  rw [exportSymbols, exported_insert hle, foldl_map, exportSymbols]
  change foldl _ (b.carry (d, t)) _ = _
  refine foldl_hom b.carry fun s id => ?_
  exact congrArg Prod.snd (b.ensureIndex_carry s.1 s.2 id)

/-! ## Setting up -/

theorem Beside.newTable (h : b.Beside t t') {name : String} (hname : name ≠ b.symbol.name)
    (kind : SymbolKind) (alignment : Alignment) :
    Alike SameError (fun x y => y.1 = b.shift x.1 ∧ b.Beside x.2 y.2)
      (newTable t name kind alignment) (newTable t' name kind alignment) := by
  obtain ⟨hid, hfound⟩ := h.lookup hname 0
  simp only [DynamicTables.newTable, hid, hfound.get, Symbol.isDefined_rename]
  split
  · exact .error rfl
  · exact .ok ⟨rfl, hfound.modify (fun _ => rfl) (fun _ => rfl) fun _ => .inl rfl⟩

theorem fill_carry (b : Bystander) (d : DynamicTables) (t : SymbolTable) :
    (d.rename b.shift).fill (b.insert t) = b.insert (d.fill t) := by
  simp only [fill, rename_dynSym, rename_dynStr, rename_plt, rename_gotPlt]
  rw [modify_insert (f := fun s => s.append (Bytes.zeros 16)) rfl,
    modify_insert (f := fun s => s.append [0]) rfl,
    modify_insert (f := fun s => (Arm.Machine.pltHeader.foldl Symbol.appendWord s).appendPatched
      .pcRelative d.gotPlt 4) (by simp [Symbol.foldl_appendWord_rename])]
  exact modify_insert (Symbol.append_rename ..)

/-- **Set up.** The same tables are made. -/
theorem Beside.setup (h : b.Beside t t') (hnames : ∀ name ∈ tableNames, name ≠ b.symbol.name) :
    Alike SameError (fun s s' => s' = b.carry s ∧ b.Suits s.2) (setup t) (setup t') := by
  simp only [tableNames, forall_mem_cons] at hnames
  obtain ⟨hdynSym, hdynStr, hrel, hgot, hhash, hgotPlt, hplt, hrelPlt, hdynamic, -⟩ := hnames
  refine (h.newTable hdynSym ..).bind ?_
  rintro ⟨dynSym, t₁⟩ ⟨_, t₁'⟩ ⟨rfl, h₁⟩
  refine (h₁.newTable hdynStr ..).bind ?_
  rintro ⟨dynStr, t₂⟩ ⟨_, t₂'⟩ ⟨rfl, h₂⟩
  refine (h₂.newTable hrel ..).bind ?_
  rintro ⟨rel, t₃⟩ ⟨_, t₃'⟩ ⟨rfl, h₃⟩
  refine (h₃.newTable hgot ..).bind ?_
  rintro ⟨got, t₄⟩ ⟨_, t₄'⟩ ⟨rfl, h₄⟩
  refine (h₄.newTable hhash ..).bind ?_
  rintro ⟨hash, t₅⟩ ⟨_, t₅'⟩ ⟨rfl, h₅⟩
  refine (h₅.newTable hgotPlt ..).bind ?_
  rintro ⟨gotPlt, t₆⟩ ⟨_, t₆'⟩ ⟨rfl, h₆⟩
  refine (h₆.newTable hplt ..).bind ?_
  rintro ⟨plt, t₇⟩ ⟨_, t₇'⟩ ⟨rfl, h₇⟩
  refine (h₇.newTable hrelPlt ..).bind ?_
  rintro ⟨relPlt, t₈⟩ ⟨_, t₈'⟩ ⟨rfl, h₈⟩
  refine (h₈.newTable hdynamic ..).bind ?_
  rintro ⟨dynamic, t₉⟩ ⟨_, t₉'⟩ ⟨rfl, h₉⟩
  let d : DynamicTables := { dynSym, dynStr, hash, rel, relPlt, plt, got, gotPlt, dynamic }
  refine .ok ⟨?_, h₉.suits.keeps ((keeps_fill d t₉).map (·.1.outer))⟩
  have hinsert : t₉' = b.insert t₉ := h₉.eq
  rw [hinsert]
  exact congrArg (Prod.mk (d.rename b.shift)) (b.fill_carry d t₉)

/-! ## Lowering -/

variable (b)

/-- The same for tables that may not be there. -/
def carry? (s : Lowering) : Lowering :=
  (s.1.map (·.rename b.shift), b.insert s.2)

def carryLowered (l : Lowered) : Lowered :=
  ⟨l.outcome.map (·.map b.shift), l.tables.map (·.rename b.shift), b.insert l.symbols⟩

theorem lowerRaw_carry (external : Bool) (d? : Option DynamicTables) (t : SymbolTable) (owner : Nat)
    (type : Nat) (target : Nat) (addend : Word64) :
    lowerRaw external (d?.map (·.rename b.shift)) (b.insert t) (b.shift owner) type
        (b.shift target) addend =
      (lowerRaw external d? t owner type target addend).map b.carryLowered := by
  simp only [lowerRaw, get_insert, Symbol.text_rename, Symbol.isImport_rename, Option.isSome_map]
  cases Arm.Machine.classify? type with
  | none => rfl
  | some c =>
    cases d? with
    | none =>
      cases c with
      | absolute => simp [carryLowered, Relocation.Outcome.map, Except.map]
      | _ => rfl
    | some d =>
      simp only [Option.map_some, ensureStub_carry, ensureSlot_carry]
      cases c with
      | call | absolute => cases (t.get target).isImport <;> rfl
      | _ => rfl

theorem lowerImport_carry (d : DynamicTables) (t : SymbolTable) (owner : Nat)
    {r' : Relocation SymbolId} (hoffset : r'.offset = r.offset) (hsize : r'.size = r.size)
    (kind : Relocation.Kind) (target : Nat) (addend : Word64) :
    (d.rename b.shift).lowerImport (b.insert t) (b.shift owner) r' kind (b.shift target) addend =
      (d.lowerImport t owner r kind target addend).map b.carryLowered := by
  simp only [lowerImport, get_insert, Symbol.text_rename, Symbol.rename_kind, hoffset, hsize,
    ensureStub_carry, ensureIndex_carry]
  cases kind with
  | absolute =>
    simp only [carry, addRelocation_carry]
    cases (t.get owner).kind.isWritable && decide (r.size = 4) <;> rfl
  | _ => rfl

theorem lowerRelocation_carry {b : Bystander} {external : Bool} :
    lowerRelocation external (d?.map (·.rename b.shift)) (b.insert t) (b.shift owner)
        (r.map b.shift) =
      (lowerRelocation external d? t owner r).map b.carryLowered := by
  rcases r with ⟨offset, size, outcome⟩
  cases outcome with
  | constant value => rfl
  | deferred kind target addend => rfl
  | pending kind target addend =>
    cases target with
    | none =>
      cases kind with
      | elf type =>
        simp only [lowerRelocation, Relocation.map, Relocation.Outcome.map, get_insert,
          Symbol.text_rename]
        rfl
      | _ => rfl
    | some target =>
      cases kind with
      | elf type => exact b.lowerRaw_carry external d? t owner type target addend
      | _ =>
        cases d? with
        | none => rfl
        | some d =>
          simp only [lowerRelocation, Relocation.map, Relocation.Outcome.map, Option.map_some,
            get_insert, Symbol.isImport_rename]
          cases (t.get target).isImport with
          | true =>
            rw [if_pos rfl, if_pos rfl]
            exact b.lowerImport_carry d t owner (by rfl) (by rfl) _ target addend
          | false => rfl

theorem alike_lowerRelocations (external : Bool) (owner : Nat)
    (done rs : List (Relocation SymbolId)) (s : Lowering) :
    Alike SameError (fun s s' => s' = b.carry? s) (lowerRelocations external owner done rs s)
      (lowerRelocations external (b.shift owner) (done.map (·.map b.shift))
        (rs.map (·.map b.shift)) (b.carry? s)) := by
  induction rs generalizing done s with
  | nil =>
    refine .ok (congrArg (Prod.mk _) ?_)
    exact modify_insert rfl
  | cons r rs ih =>
    simp only [map_cons, lowerRelocations, carry?, lowerRelocation_carry]
    cases lowerRelocation external s.1 s.2 owner r with
    | error reason => exact .error rfl
    | ok lowered =>
      rcases lowered with ⟨outcome, d?, t⟩
      have hrest := ih (done ++ (outcome.map fun outcome => { r with outcome }).toList) (d?, t)
      rw [map_append] at hrest
      cases outcome with
      | none => exact hrest
      | some outcome => exact hrest

variable {b}

theorem contains_tables :
    (tables (d?.map (·.rename b.shift))).contains (b.shift id) = (tables d?).contains id := by
  cases d? with
  | none => rfl
  | some d => simp [tables, all_rename]

/-- **Lower.** The same relocations are lowered to the same ones. -/
theorem alike_lower (h : b.Suits t) (external : Bool) (d? : Option DynamicTables) :
    Alike SameError (fun s s' => s' = b.carry? s ∧ b.Suits s.2) (lower external d? t)
      (lower external (d?.map (·.rename b.shift)) (b.insert t)) := by
  have hlower : Alike SameError (fun s s' => s' = b.carry? s) (lower external d? t)
      (lower external (d?.map (·.rename b.shift)) (b.insert t)) := by
    rw [lower_eq, lower_eq]
    refine (spliced_ids h.le).foldlM ?_ ?_ rfl
    · rintro s _ rfl
      simp [lowerSymbol, carry?, reachable_position]
    · rintro s _ id rfl
      simp only [lowerSymbol, carry?, get_insert, Symbol.rename_reachable,
        Symbol.rename_relocations, isEmpty_map, contains_tables]
      split
      · exact .ok rfl
      · exact b.alike_lowerRelocations external id [] _ s
  refine hlower.imp fun s s' hs _ heq => ⟨heq, h.keeps ?_⟩
  exact (lower_ok hs).1.shell.map (·.outer)

/-! ## Completing -/

theorem isRelativeSite_insert (h : b.Suits t) (r : Relocation SymbolId) :
    isRelativeSite (b.insert t) (r.map b.shift) = isRelativeSite t r := by
  rcases r with ⟨offset, size, outcome⟩
  cases outcome with
  | constant value => rfl
  | deferred kind target addend => rfl
  | pending kind target addend =>
    cases kind with
    | absolute =>
      cases target with
      | none => rfl
      | some target =>
        simp only [isRelativeSite, Relocation.map, Relocation.Outcome.map, Option.map_some,
          outermost_insert h, get_insert, Symbol.rename_kind, Symbol.rename_special]
        rfl
    | _ => rfl

theorem relativeSites_carry (h : b.Suits t) (d : DynamicTables) (id : Nat) :
    (d.rename b.shift).relativeSites (b.insert t) (b.shift id) = d.relativeSites t id := by
  have hexempt : (d.rename b.shift).exempt.contains (b.shift id) = d.exempt.contains id := by
    simp [exempt_rename]
  have hsites : isRelativeSite (b.insert t) ∘ (·.map b.shift) = isRelativeSite t :=
    funext fun r => isRelativeSite_insert h r
  simp only [relativeSites, get_insert, Symbol.rename_reachable, Symbol.rename_kind, hexempt,
    Symbol.rename_relocations, filter_map, map_map, hsites]
  rfl

/-- **Relative relocations.** The loader adjusts the same words. -/
theorem addRelative_carry (h : b.Suits t) (d : DynamicTables) :
    (d.rename b.shift).addRelative (b.insert t) = b.carry (d.addRelative t) := by
  have hstart : b.carry (d, t) = b.carry (d, t) ∧ b.Suits (d, t).2 := ⟨rfl, h⟩
  refine ((spliced_ids h.le).foldl (R := fun s s' => s' = b.carry s ∧ b.Suits s.2) ?_ ?_ hstart).1
  · rintro s _ ⟨rfl, hs⟩
    refine ⟨?_, hs⟩
    simp [carry, relativeSites, reachable_position]
  · -- what contains what is read again for each symbol, from a table with more entries
    rintro s _ id ⟨rfl, hs⟩
    refine ⟨?_, hs.keeps ?_⟩
    · simp only [carry, relativeSites_carry hs]
      refine foldl_hom b.carry fun s offset => ?_
      exact b.addRelocation_carry s.1 s.2 id offset 0 _
    · refine foldl_induction (P := fun s' : DynamicTables × SymbolTable =>
        Keeps (·.outer) s.2 s'.2) (.refl s.2) fun s' offset _ h => h.trans ?_
      exact (grows_addRelocation [] s'.1 s'.2 id offset 0 _).shell.map (·.outer)

theorem filterMap_insertIdx {α β : Type} {f : α → Option β} {a : α} (h : f a = none) (as : List α)
    (n : Nat) : (as.insertIdx n a).filterMap f = as.filterMap f := by
  induction n generalizing as with
  | zero => rw [insertIdx_zero, filterMap_cons_none h]
  | succ n ih =>
    cases as with
    | nil => rfl
    | cons x as => rw [insertIdx_succ_cons, filterMap_cons, filterMap_cons, ih]

theorem hashedSymbols_insert : hashedSymbols (b.insert t) = hashedSymbols t := by
  simp only [hashedSymbols, toList_insert]
  rw [filterMap_insertIdx (by rw [b.dynamicIndex, Option.map_none]), filterMap_map]
  rfl

theorem writeHash_carry : (d.rename b.shift).writeHash (b.insert t) = b.insert (d.writeHash t) := by
  simp only [writeHash, hashChains, hashedSymbols_insert, rename_count, rename_hash]
  exact modify_insert (Symbol.append_rename ..)

/-- **Finish.** The tables are completed in the same way. -/
theorem finish_carry (b : Bystander) (d : DynamicTables) (t : SymbolTable)
    (runPath : Option String) :
    (d.rename b.shift).finish (b.insert t) runPath = b.carry (d.finish t runPath) := by
  have hentries (d : DynamicTables) (t : SymbolTable) (offset : Option Nat) :
      (b.insert t).modify (b.shift d.dynamic)
          (fun s => ((d.rename b.shift).entries offset).foldl Entry.append s) =
        b.insert (t.modify d.dynamic fun s => (d.entries offset).foldl Entry.append s) := by
    refine modify_insert ?_
    rw [entries_rename, foldl_map]
    exact foldl_hom (Symbol.rename b.shift) fun s e => Entry.append_rename b.shift s e
  cases runPath with
  | none =>
    simp only [finish, writeHash_carry, rename_dynamic, hentries]
    rfl
  | some path =>
    simp only [finish, writeHash_carry, addName_carry, carry, rename_dynamic, hentries]

end Bystander

end ArmLink
