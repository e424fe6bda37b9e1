import ArmLink.Proofs.Image.Listing
import ArmLink.Proofs.Image.Mapping
import ArmLink.Proofs.Resolve.HostLink

/-!
# Indices of sections

Sections are numbered when they are laid out, before there are any headers. The headers are put
together later, and what refers to a section by its index finds the header of that section.
-/

namespace ArmLink

open Elf SymbolTable List

variable {i : Nat} {s : Section} {l : Layout} {id : SymbolId} {name : String} {external : Bool}

namespace Layout

theorem elfIndex_of_compute {t t₁ : SymbolTable} {relocatable : Bool} {first : Nat}
    (h : compute t relocatable first = .ok (l, t₁)) (hs : l.sections[i]? = some s) :
    s.elfIndex = first + i := by
  obtain ⟨t₀, -, h⟩ := bind_eq_ok.mp h
  dsimp only at h
  split at h
  · cases h
  · split at h
    · cases h
    · obtain ⟨t₂, -, ⟨⟩⟩ := bind_pure_eq_ok.mp h
      rw [getElem?_mapIdx] at hs
      obtain ⟨s', -, rfl⟩ := Option.map_eq_some_iff.mp hs
      rfl

end Layout

namespace Image

open Layout Resolve

/-! ## What is found -/

/-- The name of a header, in the section of names. -/
structure Plan.Names (p : Plan) (h : SectionHeader) (name : String) : Prop where
  stands : p.names.Has h.name (Bytes.ofString name)
  reads : 0 ∉ Bytes.ofString name → StringTable.nameAt p.names.bytes h.name = Bytes.ofString name

/-- The header of a section of the layout. -/
structure Plan.Heads (p : Plan) (s : Section) (h : SectionHeader) : Prop where
  name : p.Names h s.name
  type : h.type = s.type
  flags : h.flags = s.flags
  size : h.size = s.length
  alignment : h.alignment = s.alignment.value

/-- The section that a section of a name refers to: dynamic symbols and the dynamic section have
their strings in one, hash table and relocations refer to the dynamic symbols. -/
def partner? (name : String) : Option String :=
  if name = SectionName.dynSym ∨ name = SectionName.dynamic then some SectionName.dynStr
  else if name = SectionName.hash ∨ name = SectionName.rel ∨ name = SectionName.relPlt then
    some SectionName.dynSym
  else none

/-- What is found at the indices of sections in a planned file. -/
structure Numbered (t : SymbolTable) (l : Layout) (o : Options) (hosts : List HostRelocation)
    (p : Plan) : Prop where
  /-- the sections of the layout are numbered from the first index on, and at the index of each
  stands its header -/
  layout : ∀ (i : Nat) s, l.sections[i]? = some s → s.elfIndex = o.firstSectionIndex + i ∧
    ∃ h, p.sections[s.elfIndex]? = some h ∧ p.Heads s h
  namesIndex : p.namesIndex = o.firstSectionIndex + l.sections.length + p.relocations.length
  names : ∃ h, p.sections[p.namesIndex]? = some h ∧ p.Names h SectionName.shStrTab ∧
    h.type = SectionType.strTab ∧ h.offset = p.namesOffset ∧ h.size = p.names.bytes.length
  listed : p.symbols.isSome = (o.isExternal || !o.stripAll)
  /-- if they are listed, they and their names are the next two sections, and the last ones -/
  symbols : ∀ table ∈ p.symbols, p.sections.length = p.namesIndex + 3 ∧
    (∃ h, p.sections[p.namesIndex + 1]? = some h ∧ p.Names h SectionName.symTab ∧
      h.type = SectionType.symTab ∧ h.offset = table.offset ∧ h.link = p.namesIndex + 2) ∧
    ∃ h, p.sections[p.namesIndex + 2]? = some h ∧ p.Names h SectionName.strTab ∧
      h.type = SectionType.strTab ∧ h.offset = table.namesOffset
  /-- sections for the dynamic loader refer to the first section of the name that they need -/
  links : ∀ s ∈ l.sections, ∀ name ∈ partner? s.name, ∃ h, p.sections[s.elfIndex]? = some h ∧
    match l.section? name with
    | some s' => h.link = s'.elfIndex
    | none => h.link = 0
  /-- the header of a table of relocations refers to the symbols and to the section that is
  patched -/
  relocations : ∀ (i : Nat) table, p.relocations[i]? = some table → ∃ id s h,
    l.sections[id]? = some s ∧
    (groupOf t hosts id).relocations.mapM (relocationEntry t (symbolsOf t l o).1 s) =
      .ok table.entries ∧
    p.sections[o.firstSectionIndex + l.sections.length + i]? = some h ∧
    p.Names h (".rel" ++ s.name) ∧ h.type = SectionType.rel ∧ h.offset = table.offset ∧
    h.link = p.namesIndex + 1 ∧ h.info = s.elfIndex
  /-- a symbol lies in the section that lists the outermost symbol around it -/
  sectionOf : ∀ (i : Nat) s, l.sections[i]? = some s → ∀ id, (t.outermost id).1 ∈ s.symbols →
    sectionOf? t id = some i ∧ ((t.get id).special = false → (t.get id).sectionId = some i)
  /-- the value of a relocation that asks for the section of a symbol is the index of the section
  that it lies in -/
  sectionIndex : ∀ c owner r target addend x i s, c.layout = l →
    r.outcome = .pending .sectionIndex (some target) addend → resolve c t owner r = .ok x →
    sectionOf? t target = some i → l.sections[i]? = some s →
    ∃ v, x = .value v ∧ v.toNat = s.elfIndex
  /-- a listed symbol has the index of the section that it lies in, unless it is a constant or is
  defined elsewhere -/
  entries : ∀ table ∈ p.symbols, ∀ x ∈ table.symbols,
    if isElsewhere (t.get x.symbol).kind then x.entry.sectionIndex = SymbolEntry.undefinedIndex
    else if (t.get x.symbol).kind = .constant then
      x.entry.sectionIndex = SymbolEntry.absoluteIndex
    else ∃ i, sectionOf? t x.symbol = some i ∧
      ∀ s, l.sections[i]? = some s → x.entry.sectionIndex = s.elfIndex

variable {t t₀ t₁ t₂ : SymbolTable} {fills : List Fill} {o : Options} {hosts : List HostRelocation}
  {p : Plan} {a : Assembly}

theorem names_of_has {h : SectionHeader} (hname : p.names.Has h.name (Bytes.ofString name)) :
    p.Names h name :=
  ⟨hname, StringTable.nameAt_of_has hname⟩

/-! ## Where headers stand -/

theorem getElem?_middle {α : Type} (front middle behind : List α) (hi : i < middle.length) :
    (front ++ middle ++ behind)[front.length + i]? = middle[i]? := by
  rw [append_assoc, getElem?_append_right (Nat.le_add_right ..), Nat.add_sub_cancel_left,
    getElem?_append_left hi]

namespace Assembled

theorem length_front : (a.front l o).1.length = o.firstSectionIndex :=
  length_frontSections ..

theorem length_layout (a : Assembly) (l : Layout) (o : Options) :
    (a.layout l o).1.length = l.sections.length :=
  length_layoutSections ..

variable (ha : Assembled t l o hosts p a)
include ha

/-- The headers of the layout stand behind those that were foreseen to be before them. -/
theorem getElem?_layout (hi : i < l.sections.length) :
    p.sections[o.firstSectionIndex + i]? = (a.layout l o).1[i]? := by
  have hmiddle := getElem?_middle (a.front l o).1 (a.layout l o).1
    (a.tables ++ [a.namesHeader p] ++ a.symbols) (length_layout a l o ▸ hi)
  rw [← hmiddle, ha.sections, length_front]
  simp only [append_assoc]

/-- The headers of the tables of relocations stand behind those of the layout. -/
theorem getElem?_tables (hi : i < a.tables.length) :
    p.sections[o.firstSectionIndex + l.sections.length + i]? = a.tables[i]? := by
  have hmiddle := getElem?_middle ((a.front l o).1 ++ (a.layout l o).1) a.tables
    ([a.namesHeader p] ++ a.symbols) hi
  rw [← hmiddle, ha.sections, length_append, length_front, length_layout]
  simp only [append_assoc]

theorem exists_header (hs : l.sections[i]? = some s) :
    ∃ name, p.sections[o.firstSectionIndex + i]? = some (layoutSection l o.isExternal s name) ∧
      p.names.Has name (Bytes.ofString s.name) := by
  obtain ⟨hlt, -⟩ := List.getElem?_eq_some_iff.mp hs
  obtain ⟨name, hname, hhas⟩ := getElem?_layoutSections (l := l) o.isExternal
    ((extends_frontSections a.text.address (Front.compute l o) .empty).valid
      StringTable.valid_empty) hs
  refine ⟨name, (ha.getElem?_layout hlt).trans hname, ?_⟩
  exact hhas.extends (ha.extends_tables.trans ha.extends_all)

theorem has_shStrTab : p.names.Has a.allNames.1 (Bytes.ofString SectionName.shStrTab) :=
  (StringTable.has_addString (ha.extends_tables.valid (valid_layout a l o)) _).extends
    ha.extends_names

theorem symbols_behind {table : SymbolSection} (htable : p.symbols = some table) :
    table.symbols = (Image.listed t l o.isExternal).1 ∧ a.symbols.length = 2 ∧
    (∃ h, a.symbols[0]? = some h ∧ p.Names h SectionName.symTab ∧ h.type = SectionType.symTab ∧
      h.offset = table.offset ∧ h.link = p.namesIndex + 2 ∧
      h.info = (table.symbols.takeWhile (!·.entry.isGlobal)).length + 1) ∧
    ∃ h, a.symbols[1]? = some h ∧ p.Names h SectionName.strTab ∧ h.type = SectionType.strTab ∧
      h.offset = table.namesOffset := by
  have hbehind := ha.behind
  have hvalid : a.allNames.2.Valid :=
    (ha.extends_tables.trans (StringTable.extends_addString ..)).valid (valid_layout a l o)
  split at hbehind
  · rename_i hhas
    obtain ⟨hsymbols, hheaders, hnames, -⟩ := hbehind
    have hlisted : symbolsOf t l o = Image.listed t l o.isExternal := if_pos hhas
    cases htable.symm.trans hsymbols
    have hsymTab := StringTable.has_addString hvalid SectionName.symTab
    have hextends := StringTable.extends_addString (a.allNames.2.addString SectionName.symTab).2
      SectionName.strTab
    have hstrTab := StringTable.has_addString
      ((StringTable.extends_addString a.allNames.2 SectionName.symTab).valid hvalid)
      SectionName.strTab
    have hname {h : SectionHeader} {name : String}
        (hhas : ((a.allNames.2.addString SectionName.symTab).2.addString SectionName.strTab).2.Has
          h.name (Bytes.ofString name)) : p.Names h name :=
      names_of_has (hnames ▸ hhas)
    rw [hheaders]
    refine ⟨congrArg Prod.fst hlisted, rfl, ⟨_, rfl, ?_, rfl, rfl, rfl, rfl⟩,
      ⟨_, rfl, ?_, rfl, rfl⟩⟩
    · exact hname (hsymTab.extends hextends)
    · exact hname hstrTab
  · rw [hbehind.1] at htable
    cases htable

theorem isSome_symbols : p.symbols.isSome = hasSymbols o := by
  have hbehind := ha.behind
  split at hbehind
  · rename_i hhas
    rw [hbehind.1, hhas]
    rfl
  · rename_i hhas
    rw [hbehind.1, Bool.eq_false_iff.mpr hhas]
    rfl

end Assembled

/-! ## References -/

theorem link_layoutSection {offset : Nat} (h : partner? s.name = some name) :
    (layoutSection l external s offset).link = indexOf l name := by
  have hlink : (layoutSection l external s offset).link = (references l s.name).1 := rfl
  rw [hlink]
  unfold partner? at h
  split at h
  · rename_i hname
    cases h
    rcases hname with hname | hname <;> rw [hname] <;> rfl
  · split at h
    · rename_i hname
      cases h
      rcases hname with hname | hname | hname <;> rw [hname] <;> rfl
    · cases h

theorem resolve_sectionIndex {c : Context} {owner target : SymbolId} {r : Relocation SymbolId}
    {addend : Word64} {x : Resolved} {i : SectionId}
    (hr : r.outcome = .pending .sectionIndex (some target) addend)
    (h : resolve c t owner r = .ok x) (hsection : sectionOf? t target = some i) :
    x = .value (.ofNat 64 (c.layout.getSection i).elfIndex) := by
  rcases resolve_pending hr h with ⟨-, hrestate⟩ | ⟨v, rfl, hvalue, -⟩
  · unfold restate at hrestate
    split at hrestate <;> cases hrestate
  · unfold valueOf at hvalue
    dsimp only at hvalue
    split at hvalue
    · cases hvalue
    · rw [sectionOf?] at hsection
      rw [hsection] at hvalue
      cases pure_eq_ok.mp hvalue
      rfl

theorem index_of_placedAt {value index : Nat} (h : PlacedAt t l external id (value, index)) :
    if isElsewhere (t.get id).kind then index = SymbolEntry.undefinedIndex
    else if (t.get id).kind = .constant then index = SymbolEntry.absoluteIndex
    else ∃ i, sectionOf? t id = some i ∧ ∀ s, l.sections[i]? = some s → index = s.elfIndex := by
  cases h with
  | elsewhere hkind => rw [if_pos hkind]
  | absolute hkind =>
    rw [if_neg (by rw [hkind]; decide), if_pos hkind]
  | inSection hkind hvalue hsection =>
    unfold isSectioned at hkind
    rw [if_neg, if_neg]
    · exact ⟨_, hsection, fun s hs => by rw [getSection_of_getElem? hs]⟩
    · intro hnot
      rw [hnot] at hkind
      simp at hkind
    · intro hnot
      revert hkind hnot
      cases (t.get id).kind <;> simp [isElsewhere]

theorem sectionOf_of_mem (h : Computed t l t₁ t₀ fills) (hs : l.sections[i]? = some s)
    (hroot : (t₁.outermost id).1 ∈ s.symbols) :
    sectionOf? t₁ id = some i ∧ ((t₁.get id).special = false → (t₁.get id).sectionId = some i) := by
  obtain ⟨hsection, value, hvalue, -⟩ := h.value_of_mem hs hroot
  refine ⟨hsection, fun hspecial => ?_⟩
  have hmem : (t₁.outermost id).1 ∈ l.symbols :=
    mem_flatMap.mpr ⟨s, mem_of_getElem? hs, hroot⟩
  obtain ⟨hcandidate, hplaced⟩ := h.mem_symbols.mp hmem
  have htarget : (t.get id).special = false :=
    ((h.keeps.map Symbol.special).2 id).symm.trans hspecial
  exact (value_of_outermost h hcandidate htarget hplaced hvalue rfl).2.trans hsection

/-! ## Planned files -/

/-- **Indices.** At the index that a section got when it was laid out stands its header, and all
that refers to sections by their indices agrees with that: other headers, relocations that ask for
an index, and the listed symbols that have a section. Constants and symbols that are defined
elsewhere are listed without one, even if they lie within a symbol that has one. -/
theorem numbered_of_plan (hs : t.HasSentinels)
    (hcompute : compute t o.isRelocatable o.firstSectionIndex = .ok (l, t₁))
    (hkeeps : Keeps bare t₁ t₂) (hplan : plan t₂ l o hosts = .ok p) : Numbered t₂ l o hosts p := by
  obtain ⟨t₀, fills, hc⟩ := compute_ok hs hcompute
  obtain ⟨a, ha⟩ := plan_assembled hplan
  have hindex {i : Nat} {s : Section} (hi : l.sections[i]? = some s) :
      s.elfIndex = o.firstSectionIndex + i := elfIndex_of_compute hcompute hi
  have hbehind := ha.getElem?_behind
  refine ⟨fun i s hi => ?layout, ?namesIndex, ?names, ha.isSome_symbols,
    fun table htable => ?symbols, fun s hs name hname => ?links, fun i table hi => ?relocations,
    fun i s hi id hroot => ?sectionOf,
    fun c owner r target addend x i s hlayout hr hx hsection hi => ?sectionIndex,
    fun table htable x hx => ?entries⟩
  case layout =>
    obtain ⟨name, hheader, hname⟩ := ha.exists_header hi
    refine ⟨hindex hi, _, (hindex hi).symm ▸ hheader, names_of_has hname, rfl, rfl, rfl, rfl⟩
  case namesIndex =>
    rw [ha.namesIndex, Assembled.length_front, Assembled.length_layout, ha.length_relocations]
  case names =>
    exact ⟨_, hbehind 0, names_of_has ha.has_shStrTab, rfl, rfl, rfl⟩
  case symbols =>
    obtain ⟨-, hlength, ⟨h, hh, hname, htype, hoffset, hlink, -⟩, h', hh', hstrings⟩ :=
      ha.symbols_behind htable
    refine ⟨?_, ⟨h, (hbehind 1).trans hh, hname, htype, hoffset, hlink⟩,
      ⟨h', (hbehind 2).trans hh', hstrings⟩⟩
    rw [ha.sections, ha.namesIndex, ← ha.length_tables]
    simp only [List.length_append, List.length_singleton, hlength]
  case links =>
    obtain ⟨i, hi⟩ := List.getElem?_of_mem hs
    obtain ⟨offset, hheader, -⟩ := ha.exists_header hi
    refine ⟨_, (hindex hi).symm ▸ hheader, ?_⟩
    rw [link_layoutSection hname, indexOf]
    cases l.section? name <;> rfl
  case relocations =>
    obtain ⟨hlt, -⟩ := List.getElem?_eq_some_iff.mp hi
    rw [ha.length_relocations] at hlt
    have hg := List.getElem?_eq_getElem hlt
    obtain ⟨table', header, htable, hheader, hgroup⟩ := ha.holdsGroup hg
    cases hi.symm.trans htable
    obtain ⟨hid, heq, -⟩ := (mem_groups ha.groups).mp (List.mem_of_getElem? hg)
    have hrelocations := congrArg RelocationGroup.relocations heq
    obtain ⟨s, hs⟩ : ∃ s, l.sections[a.groups[i].sectionId]? = some s :=
      ⟨_, List.getElem?_eq_getElem hid⟩
    obtain ⟨hentries, hname, ⟨htype, -⟩, hlink, hinfo, hoffset, -⟩ := hgroup
    rw [getSection_of_getElem? hs] at hentries hname hinfo
    rw [hrelocations] at hentries
    obtain ⟨htlt, -⟩ := List.getElem?_eq_some_iff.mp hheader
    exact ⟨_, s, header, hs, hentries, (ha.getElem?_tables htlt).trans hheader, names_of_has hname,
      htype, hoffset, hlink, hinfo⟩
  case sectionOf =>
    have houtermost : t₂.outermost id = t₁.outermost id := (hkeeps.map Symbol.outer).outermost id
    have hsection := (hkeeps.read Symbol.sectionId fun _ => rfl).2
    have hspecial := (hkeeps.read Symbol.special fun _ => rfl).2 id
    rw [houtermost] at hroot
    rw [sectionOf?, houtermost, hsection, hsection, hspecial]
    exact sectionOf_of_mem hc hi hroot
  case sectionIndex =>
    refine ⟨_, resolve_sectionIndex hr hx hsection, ?_⟩
    obtain ⟨name, hheader, -⟩ := ha.exists_header hi
    obtain ⟨hlt, -⟩ := List.getElem?_eq_some_iff.mp hheader
    have hcount := ha.count
    rw [SectionHeader.maxCount] at hcount
    rw [hlayout, getSection_of_getElem? hi, hindex hi, BitVec.toNat_ofNat]
    exact Nat.mod_eq_of_lt (by omega)
  case entries =>
    rw [(ha.symbols_behind htable).1] at hx
    exact index_of_placedAt (placedAt_of_placeOf? (lists_of_mem_listed hx).place)

/-- A constant at the end of a table, in a program with some of the sections for the dynamic
loader. -/
def numberedSample : SymbolTable :=
  ⟨SymbolTable.initial.symbols ++ (
    [{ name := "main", version := 0, kind := .text, size := 8, data := [1, 2], reachable := true },
     { name := "table", version := 0, kind := .data, size := 8, reachable := true, sub := some 21 },
     { name := "part", version := 0, kind := .constant, value := some 5, reachable := true,
       outer := some ⟨20, 4⟩ },
     { name := SectionName.dynSym, version := 0, kind := .readOnlyTable, size := 16,
       reachable := true },
     { name := SectionName.dynStr, version := 0, kind := .readOnlyTable, size := 1,
       reachable := true },
     { name := SectionName.dynamic, version := 0, kind := .writableTable, size := 16,
       reachable := true }] : List Symbol).toArray⟩

/-- The headers of a program with a table of relocations between its sections and their names. -/
theorem numbered_of_plan_sample : numberedSample.HasSentinels ∧ ∃ l t₁ p,
      compute numberedSample mappedOptions.isRelocatable mappedOptions.firstSectionIndex =
        .ok (l, t₁) ∧
      plan t₁ l mappedOptions [⟨19, 0, 2, 20⟩] = .ok p ∧
      (p.namesIndex, p.sections.length, p.relocations.length) = (16, 19, 1) ∧
      Numbered t₁ l mappedOptions [⟨19, 0, 2, 20⟩] p := by
  have hs : numberedSample.HasSentinels := by decide +kernel
  obtain ⟨l, t₁, hcompute, p, hplan, hcounts⟩ : ∃ l t₁, compute numberedSample
      mappedOptions.isRelocatable mappedOptions.firstSectionIndex = .ok (l, t₁) ∧
        ∃ p, plan t₁ l mappedOptions [⟨19, 0, 2, 20⟩] = .ok p ∧
          (p.namesIndex, p.sections.length, p.relocations.length) = (16, 19, 1) := by
    decide +kernel
  exact ⟨hs, l, t₁, p, hcompute, hplan, hcounts, numbered_of_plan hs hcompute (Keeps.refl ..) hplan⟩

/-- The constant gets the section and an address of the symbol around it, and is listed with the
address but without the section. -/
theorem part_listed_absolute : ((compute numberedSample mappedOptions.isRelocatable
      mappedOptions.firstSectionIndex).toOption.bind fun r =>
        (plan r.2 r.1 mappedOptions []).toOption.bind fun p => p.symbols.bind fun table =>
          (table.symbols.find? (·.symbol == 21)).map fun x =>
            ((r.2.get 21).sectionId.map fun i => (r.1.getSection i).elfIndex,
              (r.2.get 21).value == some x.entry.value, x.entry.sectionIndex)) =
      some (some 12, true, SymbolEntry.absoluteIndex) := by
  decide +kernel

end Image

end ArmLink
