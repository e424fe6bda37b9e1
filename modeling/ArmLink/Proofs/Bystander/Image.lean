import ArmLink.Image.Write
import ArmLink.Proofs.Bystander.Resolve

/-!
# The output file besides a bystander

A file lists the symbols that are kept, with their names and addresses, and tells nothing of their
positions. So there is nothing in it from which one could tell that there is a bystander.
-/

namespace ArmLink

open SymbolTable Image Elf List
open Layout hiding listed

variable {o : Options} {offset index : Nat} {p : Plan} {l : Layout} {external : Bool}
  {names : StringTable} {symbols : List Listed} {image : Array UInt8}

/-! ## Plans at other positions -/

namespace Image

@[simps] def Listed.rename (f : SymbolId → SymbolId) (e : Listed) : Listed :=
  { e with symbol := f e.symbol }

@[simps] def RelocationGroup.rename (f : SymbolId → SymbolId) (g : RelocationGroup) :
    RelocationGroup :=
  { g with relocations := g.relocations.map (·.rename f) }

@[simps] def SymbolSection.rename (f : SymbolId → SymbolId) (s : SymbolSection) : SymbolSection :=
  { s with symbols := s.symbols.map (·.rename f) }

@[simps] def Plan.rename (f : SymbolId → SymbolId) (p : Plan) : Plan :=
  { p with symbols := p.symbols.map (·.rename f) }

variable (f : SymbolId → SymbolId)

theorem compute_rename : Front.compute (l.rename f) o = Front.compute l o := by
  have hcount : programHeaderCount (l.rename f) o = programHeaderCount l o := by
    simp only [programHeaderCount, section?_rename, tlsSection?_rename, Option.isSome_map]
  simp only [Front.compute, hcount]

theorem sectionSegments_rename : sectionSegments (l.rename f) = sectionSegments l := by
  simp only [sectionSegments, section?_rename, tlsSection?_rename]
  cases l.section? SectionName.dynamic <;> cases l.tlsSection? <;> rfl

theorem segmentHeaders_rename {base : Nat} {front : Front} :
    segmentHeaders (l.rename f) external base front = segmentHeaders l external base front := by
  simp only [segmentHeaders, sectionSegments_rename, Layout.rename_extents]

theorem indexOf_rename {name : String} : indexOf (l.rename f) name = indexOf l name := by
  rw [indexOf, section?_rename, indexOf, Option.map_map]
  rfl

theorem layoutSection_rename {s : Section} {name : Nat} :
    layoutSection (l.rename f) external (s.rename f) name = layoutSection l external s name := by
  simp only [layoutSection, references, indexOf_rename, Section.rename_name]
  rfl

theorem layoutSections_rename {sections : List Section} :
    layoutSections (l.rename f) external (sections.map (·.rename f)) names =
      layoutSections l external sections names := by
  induction sections generalizing names with
  | nil => rfl
  | cons s sections ih =>
    simp only [map_cons, layoutSections, layoutSection_rename, Section.rename_name, ih]

theorem symbolSections_rename {strings : StringTable} :
    symbolSections (symbols.map (·.rename f)) strings index offset names =
      ((symbolSections symbols strings index offset names).1.rename f,
        (symbolSections symbols strings index offset names).2) := by
  simp only [symbolSections, length_map, takeWhile_map]
  rfl

/-- What is written of symbols does not tell their positions. -/
theorem parts_rename {s : SymbolSection} : (s.rename f).parts = s.parts := by
  simp only [SymbolSection.parts, SymbolSection.rename, zipIdx_map, flatMap_map]
  rfl

theorem tailParts_rename : (p.rename f).tailParts = p.tailParts := by
  have hsymbols : (p.symbols.map (·.rename f)).toList.flatMap (·.parts) =
      p.symbols.toList.flatMap (·.parts) := by
    cases p.symbols with
    | none => rfl
    | some s =>
      simp only [Option.map_some, Option.toList_some, flatMap_singleton, parts_rename]
  simp only [Plan.tailParts, Plan.rename, hsymbols]

theorem complete_rename : (p.rename f).complete image = p.complete image := by
  rw [Plan.complete, tailParts_rename]
  rfl

end Image

namespace Bystander

variable {b : Bystander} {t : SymbolTable}

/-! ## Symbols -/

theorem placeOf?_insert (h : b.Suits t) (l : Layout) (external : Bool) (id : Nat) :
    placeOf? (b.insert t) (l.rename b.shift) external (b.shift id) =
      placeOf? t l external id := by
  simp only [placeOf?, get_insert, outermost_insert h, Symbol.rename_kind, Symbol.rename_value,
    Symbol.rename_special, Symbol.rename_sectionId, getSection_rename, Section.rename_address,
    Section.rename_elfIndex]

theorem entryOf_insert (h : b.Suits t) (l : Layout) (external : Bool) (names : StringTable)
    (id : Nat) : Image.entryOf (b.insert t) (l.rename b.shift) external names (b.shift id) =
      ((Image.entryOf t l external names id).1.map (·.rename b.shift),
        (Image.entryOf t l external names id).2) := by
  simp only [Image.entryOf, placeOf?_insert h, get_insert, Symbol.rename_reachable,
    Symbol.rename_name, Symbol.rename_size, Symbol.rename_kind]
  split <;> rfl

theorem entries_insert (h : b.Suits t) (l : Layout) (external : Bool)
    {ids ids' : List SymbolId} (hids : Spliced b ids ids') (names : StringTable) :
    Image.entries (b.insert t) (l.rename b.shift) external ids' names =
      ((Image.entries t l external ids names).1.map (·.rename b.shift),
        (Image.entries t l external ids names).2) := by
  induction hids generalizing names with
  | nil => rfl
  | here _ ih =>
    simp only [Image.entries, Image.entryOf, reachable_position, Bool.false_eq_true, if_false, ih]
    rfl
  | cons id _ ih =>
    simp only [Image.entries, entryOf_insert h, ih, map_append]
    congr 2
    cases (Image.entryOf t l external names id).1 <;> rfl

/-- **Listed symbols.** The same symbols are listed in the same order. -/
theorem listed_insert (h : b.Suits t) (l : Layout) (external : Bool) :
    listed (b.insert t) (l.rename b.shift) external =
      ((listed t l external).1.map (·.rename b.shift), (listed t l external).2) := by
  simp only [listed, entries_insert h l external (spliced_ids h.le), filter_map,
    map_append]
  rfl

/-! ## Relocations for a host linker -/

theorem groupBySection_insert {relocations : List HostRelocation} :
    groupBySection (b.insert t) (l.rename b.shift) (relocations.map (·.rename b.shift)) =
      (groupBySection t l relocations).map (·.map (·.rename b.shift)) := by
  have howner (p : Option SectionId → Bool) (r : HostRelocation) :
      p ((b.insert t).get (r.rename b.shift).owner).sectionId = p (t.get r.owner).sectionId := by
    rw [HostRelocation.rename_owner, get_insert, Symbol.rename_sectionId]
  have hany : (relocations.map (·.rename b.shift)).any
      (fun r => ((b.insert t).get r.owner).sectionId.isNone) =
        relocations.any fun r => (t.get r.owner).sectionId.isNone := by
    rw [any_map]
    exact congrArg relocations.any (funext fun r => howner Option.isNone r)
  have hfilter (sectionId : SectionId) : (relocations.map (·.rename b.shift)).filter
      (fun r => ((b.insert t).get r.owner).sectionId = some sectionId) =
        (relocations.filter fun r => (t.get r.owner).sectionId = some sectionId).map
          (·.rename b.shift) := by
    rw [filter_map]
    refine congrArg (map _) (congrArg relocations.filter (funext fun r => ?_))
    exact howner (fun id => id = some sectionId) r
  simp only [groupBySection, hany, hfilter, Layout.rename_sections, length_map]
  split
  · rfl
  · refine congrArg Except.ok ?_
    dsimp only
    rw [map_filterMap]
    refine congrArg (filterMap · _) (funext fun sectionId => ?_)
    cases relocations.filter fun r => (t.get r.owner).sectionId = some sectionId <;> rfl

theorem relocationEntry_insert (b : Bystander) (t : SymbolTable) (symbols : List Listed)
    (s : Section) (r : HostRelocation) :
    relocationEntry (b.insert t) (symbols.map (·.rename b.shift)) (s.rename b.shift)
      (r.rename b.shift) = relocationEntry t symbols s r := by
  have hindex : (symbols.map (·.rename b.shift)).findIdx? (·.symbol = b.shift r.target) =
      symbols.findIdx? (·.symbol = r.target) := by
    rw [findIdx?_map]
    refine congrArg (findIdx? · symbols) (funext fun e => ?_)
    simp
  simp only [relocationEntry, HostRelocation.rename_target, HostRelocation.rename_owner, hindex,
    get_insert, Symbol.rename_value, Symbol.text_rename]
  rfl

theorem relocationTables_insert {groups : List RelocationGroup} :
    relocationTables (b.insert t) (l.rename b.shift) (symbols.map (·.rename b.shift)) index
        (groups.map (·.rename b.shift)) names offset =
      relocationTables t l symbols index groups names offset := by
  induction groups generalizing names offset with
  | nil => rfl
  | cons g groups ih =>
    have hentries : (g.relocations.map (·.rename b.shift)).mapM (relocationEntry (b.insert t)
        (symbols.map (·.rename b.shift)) ((l.getSection g.sectionId).rename b.shift)) =
          g.relocations.mapM (relocationEntry t symbols (l.getSection g.sectionId)) := by
      rw [mapM_map]
      exact congrArg (mapM · g.relocations) (funext fun r => b.relocationEntry_insert ..)
    simp only [map_cons, relocationTables, RelocationGroup.rename_sectionId,
      RelocationGroup.rename_relocations, getSection_rename, hentries, Section.rename_name,
      Section.rename_elfIndex, ih]

/-! ## The whole file -/

theorem entryAddress_insert (hentry : ∀ name, o.entry = .symbol name → name ≠ b.symbol.name)
    (t : SymbolTable) (l : Layout) :
    entryAddress (b.insert t) (l.rename b.shift) o = entryAddress t l o := by
  simp only [entryAddress]
  split
  · rfl
  · cases hsymbol : o.entry with
    | address address => rfl
    | symbol name =>
      simp only [find?_insert (hentry name hsymbol)]
      cases t.find? name 0 with
      | none => rfl
      | some id =>
        simp only [Option.map_some, Option.filter_some, get_insert, Symbol.isDefined_rename]
        cases (t.get id).isDefined with
        | false => rfl
        | true =>
          simp only [if_true, get_insert]
          rfl

/-- **Plan.** The plans agree up to positions. -/
theorem alike_plan (h : b.Suits t) (hentry : ∀ name, o.entry = .symbol name → name ≠ b.symbol.name)
    (l : Layout) (relocations : List HostRelocation) :
    Alike (· = ·) (fun p p' => p' = p.rename b.shift) (plan t l o relocations)
      (plan (b.insert t) (l.rename b.shift) o (relocations.map (·.rename b.shift))) := by
  have hextent : (l.rename b.shift).extent? .text = l.extent? .text := rfl
  have hfileSize : (l.rename b.shift).fileSize = l.fileSize := rfl
  have hlisted : (if o.isExternal || !o.stripAll then
      listed (b.insert t) (l.rename b.shift) o.isExternal else ([], .empty)) =
        ((if o.isExternal || !o.stripAll then listed t l o.isExternal
          else ([], .empty)).1.map (·.rename b.shift),
          (if o.isExternal || !o.stripAll then listed t l o.isExternal else ([], .empty)).2) := by
    split
    · exact listed_insert h l o.isExternal
    · rfl
  simp only [plan, hextent, hfileSize, compute_rename, Layout.rename_sections,
    layoutSections_rename, hlisted, groupBySection_insert, segmentHeaders_rename,
    entryAddress_insert hentry]
  split
  · split
    · exact .error rfl
    · refine (Alike.of_map _).bind ?_
      rintro groups _ rfl
      simp only [relocationTables_insert, length_map, symbolSections_rename]
      refine (Alike.refl _).bind ?_
      rintro ⟨tables, headers, names, stop⟩ _ rfl
      -- all headers are equal by now, and the listed symbols are not looked at any more
      cases o.isExternal || !o.stripAll with
      | true =>
        simp only [if_true, SymbolSection.rename_namesOffset, SymbolSection.rename_names]
        split
        · exact .error rfl
        · refine (Alike.refl _).bind ?_
          rintro ⟨entry, warning⟩ _ rfl
          exact .ok rfl
      | false =>
        simp only [Bool.false_eq_true, if_false]
        split
        · exact .error rfl
        · refine (Alike.refl _).bind ?_
          rintro ⟨entry, warning⟩ _ rfl
          exact .ok rfl
  · exact .error rfl

theorem putSymbol_insert (b : Bystander) (t : SymbolTable) (l : Layout) (image : Array UInt8)
    (id : Nat) : putSymbol (b.insert t) (l.rename b.shift) image (b.shift id) =
      putSymbol t l image id := by
  simp only [putSymbol, get_insert, Symbol.rename_data, Symbol.rename_value, Symbol.text_rename]
  rfl

theorem putSymbols_insert :
    putSymbols (b.insert t) (l.rename b.shift) image = putSymbols t l image := by
  have hstored : storedSymbols (l.rename b.shift) = (storedSymbols l).map b.shift := by
    simp only [storedSymbols, Layout.rename_sections, filter_map, flatMap_map,
      map_flatMap]
    rfl
  rw [putSymbols, hstored, foldlM_map]
  exact congrArg (foldlM · image (storedSymbols l))
    (funext fun image => funext fun id => b.putSymbol_insert t l image id)

/-- **Write.** The same bytes are written. -/
theorem write_insert {id : BuildId} {uuid : Bytes} :
    (p.rename b.shift).write (b.insert t) (l.rename b.shift) id uuid =
      p.write t l id uuid := by
  simp only [Plan.write, putSymbols_insert, complete_rename]
  rfl

end Bystander

end ArmLink
