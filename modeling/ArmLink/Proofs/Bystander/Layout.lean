import ArmLink.Proofs.Bystander
import ArmLink.Proofs.Layout.Compute

/-!
# Layouts besides a bystander

Only symbols that are kept are laid out. So a bystander takes no place in any section, and the
others get the addresses that they have without it.
-/

namespace ArmLink

open SymbolTable Layout List

variable {name : String} {sections : List Section}

@[simps] def Section.rename (f : SymbolId → SymbolId) (s : Section) : Section :=
  { s with symbols := s.symbols.map f }

/-- The layout, with other positions for the symbols of its sections. -/
@[simps] def Layout.rename (f : SymbolId → SymbolId) (l : Layout) : Layout :=
  { l with sections := l.sections.map (·.rename f) }

@[simps] def Layout.Place.rename (f : SymbolId → SymbolId) (p : Place) : Place :=
  { p with symbol := f p.symbol }

namespace Layout

variable (f : SymbolId → SymbolId) (l : Layout) (s : Symbol)

@[simp] theorem getSection_rename {id : SectionId} :
    (l.rename f).getSection id = (l.getSection id).rename f := by
  simp only [getSection, rename, getD_eq_getElem?_getD, getElem?_map]
  cases l.sections[id]? <;> rfl

@[simp] theorem sectionId?_rename : (l.rename f).sectionId? name = l.sectionId? name := by
  rw [sectionId?, rename_sections, findIdx?_map]
  rfl

@[simp] theorem section?_rename : (l.rename f).section? name = (l.section? name).map (·.rename f) :=
  find?_map ..

@[simp] theorem tlsSection?_rename : (l.rename f).tlsSection? = l.tlsSection?.map (·.rename f) :=
  find?_map ..

theorem isCandidate_rename : isCandidate (s.rename f) = isCandidate s := by
  simp only [isCandidate, Symbol.rename_reachable, Symbol.rename_special, Symbol.rename_outer,
    Option.isNone_map]

theorem promotedKind_rename : promotedKind (s.rename f) = promotedKind s := by
  simp only [promotedKind, Symbol.rename_size, Symbol.rename_data, Symbol.text_rename,
    Symbol.rename_relocations, isEmpty_map, Symbol.rename_kind]

theorem symbolAlignment_rename : symbolAlignment (s.rename f) = symbolAlignment s := rfl

theorem storedLength_rename {address length : Nat} :
    storedLength (sections.map (·.rename f)) address length =
      storedLength sections address length := by
  have hfind : (sections.map (·.rename f)).find? (·.type = Elf.SectionType.noBits) =
      (sections.find? (·.type = Elf.SectionType.noBits)).map (·.rename f) := find?_map ..
  rw [storedLength, hfind, storedLength]
  cases sections.find? (·.type = Elf.SectionType.noBits) <;> rfl

theorem sectionsIn_rename {segment : Elf.Segment} : sectionsIn (sections.map (·.rename f)) segment =
      (sectionsIn sections segment).map (Prod.map (·.rename f) id) := by
  rw [sectionsIn, zipIdx_map, filter_map]
  rfl

end Layout

namespace Bystander

variable {b : Bystander} {t : SymbolTable}

/-! ## Sections -/

/-- **Promote.** The same symbols get other kinds. -/
theorem alike_promote (h : b.Suits t) :
    Alike SameError b.Follows (promote t t.ids) (promote (b.insert t) (b.insert t).ids) := by
  refine (spliced_ids h.le).foldlM ?_ ?_ ⟨rfl, h⟩
  · rintro t _ ⟨rfl, -⟩
    simp [isCandidate, reachable_position]
  · rintro t _ id ⟨rfl, ht⟩
    simp only [get_insert, isCandidate_rename, promotedKind_rename]
    split
    · cases promotedKind (t.get id) with
      | error reason => exact .error rfl
      | ok kind => exact .ok ⟨modify_insert rfl, ht.keeps (.modify rfl)⟩
    · exact .ok ⟨rfl, ht⟩

theorem candidates_insert (hle : b.position ≤ t.size) (kind : SymbolKind) :
    candidates (b.insert t) kind = (candidates t kind).map b.shift := by
  refine (spliced_ids hle).filter ?_ fun id => ?_
  · rw [isCandidate, reachable_position]
    rfl
  · rw [get_insert, isCandidate_rename]
    rfl

theorem sectionsOfKind_insert (hle : b.position ≤ t.size) (kind : SymbolKind)
    (segment : Elf.Segment) (grouping : Grouping) :
    sectionsOfKind (b.insert t) kind segment grouping =
      (sectionsOfKind t kind segment grouping).map (·.rename b.shift) := by
  cases grouping with
  | together name =>
    simp only [sectionsOfKind, candidates_insert hle, isEmpty_map]
    split <;> rfl
  | apart =>
    simp only [sectionsOfKind, candidates_insert hle, map_map]
    refine map_congr_left fun id _ => ?_
    simp only [Function.comp_apply, get_insert, Symbol.rename_name]
    rfl

/-- **Sections.** They hold the same symbols. -/
theorem sectionsOf_insert (hle : b.position ≤ t.size) :
    sectionsOf (b.insert t) = (sectionsOf t).map (·.rename b.shift) := by
  rw [sectionsOf, sectionsOf, map_flatMap]
  exact congrArg sectionOrder.flatMap (funext fun e => sectionsOfKind_insert hle e.1 e.2.1 e.2.2)

/-! ## Addresses -/

theorem alike_after {α β : Type} {R : α → β → Prop} {x : Placing α} {y : Placing β}
    (earlier earlier' : List Place) (h : Alike SameError R x y) :
    Alike SameError R (Placing.after earlier x) (Placing.after earlier' y) :=
  h.mapError fun _ _ he => he

variable (b t)

theorem alike_placeSymbols (s : Section) (sectionId : SectionId) (ids : List SymbolId)
    (cursor : Nat) : Alike SameError (fun x y => y = (x.1.map (·.rename b.shift), x.2))
      (placeSymbols t s sectionId ids cursor)
      (placeSymbols (b.insert t) (s.rename b.shift) sectionId (ids.map b.shift) cursor) := by
  induction ids generalizing cursor with
  | nil => exact .ok rfl
  | cons id ids ih =>
    simp only [map_cons, placeSymbols, get_insert, symbolAlignment_rename, Symbol.rename_size,
      Symbol.text_rename, Section.rename_segment, Section.rename_name]
    cases (symbolAlignment (t.get id)).alignUp? cursor with
    | none => exact .error rfl
    | some address =>
      dsimp only
      split
      · refine (alike_after _ _ (ih _)).bind ?_
        rintro ⟨places, stop⟩ _ rfl
        exact .ok rfl
      · exact .error rfl

theorem alike_placeSection (s : Section) (sectionId : SectionId) (start : Nat) :
    Alike SameError (fun x y => y = (x.1.rename b.shift, x.2.map (·.rename b.shift)))
      (placeSection t s sectionId start)
      (placeSection (b.insert t) (s.rename b.shift) sectionId start) := by
  have halignments : (s.symbols.map b.shift).map (fun id => symbolAlignment ((b.insert t).get id)) =
      s.symbols.map fun id => symbolAlignment (t.get id) := by
    rw [map_map]
    refine map_congr_left fun id _ => ?_
    rw [Function.comp_apply, get_insert, symbolAlignment_rename]
  simp only [placeSection, Section.rename_symbols, halignments]
  split
  · exact .error rfl
  · refine (b.alike_placeSymbols t s sectionId _ _).bind ?_
    rintro ⟨places, stop⟩ _ rfl
    exact .ok rfl

theorem alike_placeSections (sections : List (Section × SectionId)) (cursor : Nat) : Alike SameError
      (fun x y => y = (x.1.map (·.rename b.shift), x.2.1.map (·.rename b.shift), x.2.2))
      (placeSections t sections cursor)
      (placeSections (b.insert t) (sections.map (Prod.map (·.rename b.shift) id)) cursor) := by
  induction sections generalizing cursor with
  | nil => exact .ok rfl
  | cons s sections ih =>
    refine (b.alike_placeSection t s.1 s.2 cursor).bind ?_
    rintro ⟨placed, places⟩ _ rfl
    refine (alike_after _ _ (ih _)).bind ?_
    rintro ⟨others, more, stop⟩ _ rfl
    exact .ok (by simp)

theorem alike_placeSegment (textStart : Nat) (sections : List Section) (segment : Elf.Segment)
    (cursor : Nat) : Alike SameError
      (fun x y => y = (x.1, x.2.1.map (·.rename b.shift), x.2.2.1.map (·.rename b.shift), x.2.2.2))
      (placeSegment t textStart sections segment cursor)
      (placeSegment (b.insert t) textStart (sections.map (·.rename b.shift)) segment cursor) := by
  simp only [placeSegment, sectionsIn_rename]
  split
  · exact .error rfl
  · refine (b.alike_placeSections t _ _).bind ?_
    rintro ⟨placed, places, stop⟩ _ rfl
    simp only [storedLength_rename]
    split
    · exact .ok rfl
    · exact .error rfl

theorem alike_placeSegments (textStart : Nat) (sections : List Section)
    (segments : List Elf.Segment) (cursor : Nat) : Alike SameError
      (fun x y => y = (x.1, x.2.1.map (·.rename b.shift), x.2.2.1.map (·.rename b.shift), x.2.2.2))
      (placeSegments t textStart sections segments cursor)
      (placeSegments (b.insert t) textStart (sections.map (·.rename b.shift)) segments cursor) := by
  induction segments generalizing cursor with
  | nil => exact .ok rfl
  | cons segment segments ih =>
    refine (b.alike_placeSegment t textStart sections segment cursor).bind ?_
    rintro ⟨extent, placed, places, stop⟩ _ rfl
    refine (alike_after _ _ (ih _)).bind ?_
    rintro ⟨extents, others, more, stop⟩ _ rfl
    exact .ok (by simp)

/-- **Places.** The same symbols get the same addresses. -/
theorem alike_placeAll (textStart : Nat) (sections : List Section) : Alike SameError
      (fun x y => y = (x.1, x.2.1.map (·.rename b.shift), x.2.2.map (·.rename b.shift)))
      (placeAll t textStart sections)
      (placeAll (b.insert t) textStart (sections.map (·.rename b.shift))) := by
  simp only [placeAll, sectionsIn_rename]
  refine (b.alike_placeSegments t textStart sections _ _).bind ?_
  rintro ⟨extents, loaded, places, dataEnd⟩ _ rfl
  refine (alike_after _ _ (b.alike_placeSections t _ _)).bind ?_
  rintro ⟨threadLocal, more, stop⟩ _ rfl
  refine .ok ?_
  simp only [map_append, map_map]
  rfl

variable {b t}

theorem assign_insert {places : List Place} :
    assign (b.insert t) (places.map (·.rename b.shift)) = b.insert (assign t places) := by
  rw [assign, foldl_map]
  exact foldl_hom b.insert fun t p => modify_insert rfl

/-! ## Symbols without a place of their own -/

variable (h : b.Suits t)
include h

theorem placeWithin_insert (id : Nat) :
    placeWithin (b.insert t) (b.shift id) = b.insert (placeWithin t id) := by
  simp only [placeWithin, get_insert, Symbol.rename_outer, Option.isSome_map, outermost_insert h,
    Symbol.rename_value, Symbol.rename_kind, Symbol.rename_sectionId]
  split
  · split
    · split
      · exact modify_insert rfl
      · rfl
    · rfl
  · rfl

theorem foldl_placeWithin_insert {t₁ : SymbolTable} (h₁ : b.Suits t₁) :
    b.Follows (t.ids.foldl placeWithin t₁)
      ((b.insert t).ids.foldl placeWithin (b.insert t₁)) := by
  refine (spliced_ids h.le).foldl (R := b.Follows) ?_ ?_ ⟨rfl, h₁⟩
  · rintro t _ ⟨rfl, ht⟩
    refine ⟨?_, ht⟩
    rw [placeWithin, outer_position]
    rfl
  · rintro t _ id ⟨rfl, ht⟩
    exact ⟨placeWithin_insert ht id, ht.keeps (keeps_placeWithin (fun _ _ _ _ => rfl) t id)⟩

theorem defineSentinel_insert (hname : name ≠ b.symbol.name) (kind : SymbolKind) (value : Nat)
    (sectionId : Option SectionId) : b.Follows (defineSentinel t name kind value sectionId)
      (defineSentinel (b.insert t) name kind value sectionId) := by
  simp only [defineSentinel, defineSpecial, lookup_insert hname h.le]
  constructor
  · rw [modify_insert (f := fun s => { s with
      kind, value := some value, size := 0, special := true, reachable := true }) rfl]
    exact modify_insert rfl
  · exact ((h.lookup name 0).keeps (.modify rfl)).keeps (.modify rfl)

theorem alike_definePairs (hnames : b.symbol.name ∉ sentinels) (l : Layout) :
    Alike SameError b.Follows (definePairs l t)
      (definePairs (l.rename b.shift) (b.insert t)) := by
  have hne {name : String} (hname : name ∈ sentinels) : name ≠ b.symbol.name :=
    fun heq => hnames (heq ▸ hname)
  refine Alike.foldlM ?_ ⟨rfl, h⟩
  rintro t _ ⟨start, stop, name, kind⟩ hpair ⟨rfl, ht⟩
  obtain ⟨hstart, hstop⟩ := mem_sentinels_of_pair _ hpair
  simp only [sectionId?_rename, getSection_rename]
  split
  · exact .error rfl
  · obtain ⟨heq, ht⟩ := defineSentinel_insert ht (hne hstart) ..
    rw [Section.rename_address, Section.rename_length, heq]
    exact .ok (defineSentinel_insert ht (hne hstop) ..)

/-- **Sentinels.** They get the same values. -/
theorem alike_defineSentinels (hnames : b.symbol.name ∉ sentinels) (l : Layout) :
    Alike SameError b.Follows (defineSentinels l t)
      (defineSentinels (l.rename b.shift) (b.insert t)) := by
  refine (alike_definePairs h hnames l).bind ?_
  rintro t _ ⟨rfl, ht⟩
  rw [sectionId?_rename]
  refine .ok (defineSentinel_insert ht (fun heq => hnames (heq ▸ ?_)) ..)
  decide

/-- **Compute.** The layouts agree up to positions. -/
theorem alike_compute (hnames : b.symbol.name ∉ sentinels) (relocatable : Bool) (firstIndex : Nat) :
    Alike SameError (fun x y => y = (x.1.rename b.shift, b.insert x.2) ∧ b.Suits x.2)
      (compute t relocatable firstIndex) (compute (b.insert t) relocatable firstIndex) := by
  refine (alike_promote h).bind ?_
  rintro t _ ⟨rfl, ht⟩
  simp only [sectionsOf_insert ht.le, length_map]
  split
  · exact .error rfl
  · have hplaces := b.alike_placeAll t (textStartOf relocatable) (sectionsOf t)
    -- if symbols cannot be placed, the reasons are the same but the places given so far are not
    generalize placeAll t (textStartOf relocatable) (sectionsOf t) = placed at hplaces ⊢
    generalize placeAll (b.insert t) _ _ = placed' at hplaces ⊢
    cases hplaces with
    | error he => exact .error he
    | @ok placed _ heq =>
      obtain ⟨extents, sections, places⟩ := placed
      subst heq
      have hassign : b.Suits (assign t places) :=
        ht.keeps (keeps_assign (fun _ _ _ => rfl) t places)
      obtain ⟨hwithin, hsuits⟩ := foldl_placeWithin_insert ht hassign
      simp only [assign_insert, hwithin]
      let l : Layout :=
        { sections := sections.mapIdx fun i s => { s with elfIndex := firstIndex + i }
          extents, textStart := textStartOf relocatable }
      have hsections : (sections.map (·.rename b.shift)).mapIdx
          (fun i s => { s with elfIndex := firstIndex + i }) = (l.rename b.shift).sections := by
        apply ext_getElem?
        intro i
        simp only [Layout.rename_sections, l, getElem?_map, getElem?_mapIdx]
        cases sections[i]? <;> rfl
      rw [hsections]
      refine (alike_defineSentinels hsuits hnames l).bind ?_
      rintro t _ ⟨rfl, ht⟩
      exact .ok ⟨rfl, ht⟩

omit h

end Bystander

end ArmLink
