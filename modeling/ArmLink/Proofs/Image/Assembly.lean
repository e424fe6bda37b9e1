import ArmLink.Proofs.Alignment
import ArmLink.Proofs.Elf.StringTable
import ArmLink.Proofs.Image.Parts

/-!
# How the section headers are put together

The headers of a file stand in this order: those of what stands before the first section, those of
the layout, one for each table of relocations, that of the names of sections, and those of the
symbols and their names. The names are collected on the way.
-/

namespace ArmLink.Image

open Elf ArmLink.Span StringTable List

variable {t : SymbolTable} {l : Layout} {o : Options} {hosts : List HostRelocation} {p : Plan}
  {names names' : StringTable} {i n : Nat} {g : RelocationGroup} {groups : List RelocationGroup}
  {header : SectionHeader}

/-! ## Sizes -/

theorem length_flatMap_of_forall {α : Type} {f : α → Bytes} (hf : ∀ a, (f a).length = n)
    (as : List α) : (as.flatMap f).length = as.length * n := by
  induction as with
  | nil => exact (Nat.zero_mul n).symm
  | cons a as ih => rw [flatMap_cons, length_append, ih, hf, length_cons, Nat.succ_mul,
      Nat.add_comm]

/-! ## In front of the first section -/

theorem extends_frontSections (base : Nat) (front : Front) (names : StringTable) :
    names.Extends (frontSections base front names).2 := by
  have hadd (names : StringTable) := extends_addString names
  unfold frontSections
  cases front.interpreter with
  | none =>
    cases front.note with
    | none => exact .refl _
    | some note => exact hadd _ _
  | some interpreter =>
    cases front.note with
    | none => exact hadd _ _
    | some note => exact (hadd _ _).trans (hadd _ _)

/-- There are as many headers before the first section as were foreseen. -/
theorem length_frontSections {base : Nat} :
    (frontSections base (Front.compute l o) names).1.length = o.firstSectionIndex := by
  unfold frontSections Front.compute Options.firstSectionIndex
  cases o.interpreter? <;> cases o.buildIdSize? <;> rfl

/-! ## Sections of the layout -/

theorem length_layoutSections (external : Bool) (sections : List Section) (names : StringTable) :
    (layoutSections l external sections names).1.length = sections.length := by
  induction sections generalizing names with
  | nil => rfl
  | cons s sections ih => exact congrArg (· + 1) (ih _)

theorem extends_layoutSections (external : Bool) (sections : List Section) (names : StringTable) :
    names.Extends (layoutSections l external sections names).2 := by
  induction sections generalizing names with
  | nil => exact .refl _
  | cons s sections ih => exact (extends_addString ..).trans (ih _)

/-- The header of a section stands at its position, and its name in the table. -/
theorem getElem?_layoutSections (external : Bool) {sections : List Section} (h : names.Valid)
    {s : Section} (hs : sections[i]? = some s) :
    ∃ name, (layoutSections l external sections names).1[i]? =
        some (layoutSection l external s name) ∧
      (layoutSections l external sections names).2.Has name (Bytes.ofString s.name) := by
  induction sections generalizing names i with
  | nil => cases hs
  | cons s' sections ih =>
    have hvalid := (extends_addString names s'.name).valid h
    cases i with
    | zero =>
      cases hs
      exact ⟨_, rfl, (has_addString h _).extends (extends_layoutSections ..)⟩
    | succ i => exact ih hvalid hs

/-! ## Relocations for a host linker -/

def groupOf (t : SymbolTable) (hosts : List HostRelocation) (id : SectionId) : RelocationGroup :=
  ⟨id, hosts.filter fun r => (t.get r.owner).sectionId = some id⟩

variable (h : groupBySection t l hosts = .ok groups)
include h

theorem groupBySection_ok : (∀ r ∈ hosts, (t.get r.owner).sectionId ≠ none) ∧
      groups = ((range l.sections.length).map (groupOf t hosts)).filter
        fun g => !g.relocations.isEmpty := by
  unfold groupBySection at h
  split at h
  · cases h
  · rename_i hany
    cases h
    refine ⟨fun r hr hnone => hany (any_eq_true.mpr ⟨r, hr, by rw [hnone]; rfl⟩), ?_⟩
    rw [← filterMap_eq_filter, filterMap_map]
    refine filterMap_congr fun id _ => ?_
    simp only [Function.comp_apply, groupOf, Option.guard]
    split
    · rename_i hnil
      exact (if_neg (by rw [hnil]; decide)).symm
    · rename_i hne
      exact (if_pos (by simpa using hne)).symm

theorem mem_groups :
    g ∈ groups ↔ g.sectionId < l.sections.length ∧ g = groupOf t hosts g.sectionId ∧
      g.relocations ≠ [] := by
  rw [(groupBySection_ok h).2, mem_filter, mem_map]
  simp only [mem_range, Bool.not_eq_true', isEmpty_eq_false_iff]
  constructor
  · rintro ⟨⟨id, hid, rfl⟩, hne⟩
    exact ⟨hid, rfl, hne⟩
  · rintro ⟨hid, heq, hne⟩
    exact ⟨⟨g.sectionId, hid, heq.symm⟩, hne⟩

omit h

/-- A header of a table that stands before an offset of the file and is not mapped. -/
def Before (stop : Nat) (h : SectionHeader) : Prop := h.address = 0 ∧ h.offset + h.size ≤ stop

/-- A table of relocations and its header hold the relocations of a section. `index` is that of the
table of symbols. -/
structure HoldsGroup (t : SymbolTable) (l : Layout) (symbols : List Listed) (index : Nat)
    (names : StringTable) (g : RelocationGroup) (table : RelocationTable) (header : SectionHeader) :
    Prop where
  entries : g.relocations.mapM (relocationEntry t symbols (l.getSection g.sectionId)) =
    .ok table.entries
  /-- the header has the name of the section behind that of relocations -/
  name : names.Has header.name (Bytes.ofString (".rel" ++ (l.getSection g.sectionId).name))
  /-- it is one of relocations, which tells the section that is patched -/
  kind : header.type = SectionType.rel ∧ header.flags = SectionFlags.infoLink
  link : header.link = index
  info : header.info = (l.getSection g.sectionId).elfIndex
  place : header.offset = table.offset ∧
    header.size = table.entries.length * RelocationEntry.byteSize

section

variable {symbols : List Listed} {index offset stop : Nat} {tables : List RelocationTable}
  {headers : List SectionHeader}

/-- Each group has a table and a header. The tables follow each other, and names are only added. -/
theorem relocationTables_ok (h : relocationTables t l symbols index groups names offset =
      .ok (tables, headers, names', stop)) :
    names.Extends names' ∧ tables.length = groups.length ∧ headers.length = groups.length ∧
      Packed offset stop
        (tables.map fun table => Part.span ⟨table.offset, table.entries.flatMap (·.bytes)⟩) ∧
      (∀ header ∈ headers, Before stop header) ∧
      (names.Valid → ∀ (i : Nat) g, groups[i]? = some g → ∃ table header,
        tables[i]? = some table ∧ headers[i]? = some header ∧
          HoldsGroup t l symbols index names' g table header) := by
  induction groups generalizing names offset tables headers with
  | nil =>
    cases h
    exact ⟨.refl _, rfl, rfl, .nil (Nat.le_refl _), forall_mem_nil _, fun _ => nofun⟩
  | cons g groups ih =>
    obtain ⟨entries, hentries, h⟩ := bind_eq_ok.mp h
    obtain ⟨⟨tables', headers', names'', stop'⟩, hrest, ⟨⟩⟩ := bind_pure_eq_ok.mp h
    obtain ⟨hextends, htables, hheaders, hpacked, hbefore, hgroups⟩ := ih hrest
    have hadd := extends_addString names (".rel" ++ (l.getSection g.sectionId).name)
    refine ⟨hadd.trans hextends, congrArg (· + 1) htables, congrArg (· + 1) hheaders, ?_,
      forall_mem_cons.mpr ⟨⟨rfl, hpacked.le⟩, hbefore⟩, fun hvalid i g' hg' => ?_⟩
    · refine .cons (Alignment.le_alignUp ..) (Nat.le_add_right ..) ?_
      show Packed (_ + (entries.flatMap _).length) _ _
      rw [length_flatMap_of_forall RelocationEntry.length_bytes]
      exact hpacked
    · cases i with
      | zero =>
        cases hg'
        exact ⟨_, _, rfl, rfl, hentries, (has_addString hvalid _).extends hextends, ⟨rfl, rfl⟩, rfl,
          rfl, rfl, rfl⟩
      | succ i => exact hgroups (hadd.valid hvalid) i g' hg'

end

/-! ## All headers -/

/-- Whether a file lists its symbols. -/
def hasSymbols (o : Options) : Bool := o.isExternal || !o.stripAll

def symbolsOf (t : SymbolTable) (l : Layout) (o : Options) : List Listed × StringTable :=
  if hasSymbols o then listed t l o.isExternal else ([], .empty)

/-- What the headers of a plan are made from. -/
structure Assembly where
  text : Extent
  groups : List RelocationGroup
  tables : List SectionHeader
  /-- the headers of the symbols and of their names, if there are any -/
  symbols : List SectionHeader
  names : StringTable
  stop : Nat

namespace Assembly

/-- The headers before those of the layout, and their names. -/
def front (a : Assembly) (l : Layout) (o : Options) : List SectionHeader × StringTable :=
  frontSections a.text.address (Front.compute l o) .empty

/-- The headers of the layout, and all names up to theirs. -/
def layout (a : Assembly) (l : Layout) (o : Options) : List SectionHeader × StringTable :=
  layoutSections l o.isExternal l.sections (a.front l o).2

/-- The names with that of the section of names. -/
def allNames (a : Assembly) : Nat × StringTable := a.names.addString SectionName.shStrTab

def namesHeader (a : Assembly) (p : Plan) : SectionHeader :=
  { name := a.allNames.1, type := SectionType.strTab, offset := p.namesOffset,
    size := p.names.bytes.length, alignment := 1 }

end Assembly

/-- All that goes into a plan. -/
structure Assembled (t : SymbolTable) (l : Layout) (o : Options) (hosts : List HostRelocation)
    (p : Plan) (a : Assembly) : Prop where
  text : l.extent? .text = some a.text
  front : p.front = Front.compute l o
  fits : (Front.compute l o).stop ≤ headerSpace
  segments : p.segments = segmentHeaders l o.isExternal a.text.address p.front
  entry : ∃ warning, entryAddress t l o = .ok (p.entry, warning)
  groups : groupBySection t l hosts = .ok a.groups
  tables : relocationTables t l (symbolsOf t l o).1 (p.namesIndex + 1) a.groups (a.layout l o).2
    l.fileSize = .ok (p.relocations, a.tables, a.names, a.stop)
  namesIndex : p.namesIndex = (a.front l o).1.length + (a.layout l o).1.length + a.groups.length
  sections : p.sections = (a.front l o).1 ++ (a.layout l o).1 ++ a.tables
    ++ [a.namesHeader p] ++ a.symbols
  count : p.sections.length < SectionHeader.maxCount
  /-- the symbols and their names come last, unless they are left out, and then the names of
  sections -/
  behind : if hasSymbols o then
      let r := symbolSections (symbolsOf t l o).1 (symbolsOf t l o).2 (p.namesIndex + 1) a.stop
        a.allNames.2
      p.symbols = some r.1 ∧ a.symbols = r.2.1 ∧ p.names = r.2.2 ∧
        p.namesOffset = r.1.namesOffset + r.1.names.bytes.length
    else p.symbols = none ∧ a.symbols = [] ∧ p.names = a.allNames.2 ∧ p.namesOffset = a.stop
  headersOffset : p.headersOffset = Alignment.word.alignUp (p.namesOffset + p.names.bytes.length)

/-- Every plan is put together so. -/
theorem plan_assembled (h : plan t l o hosts = .ok p) : ∃ a, Assembled t l o hosts p a := by
  unfold plan at h
  dsimp only at h
  split at h
  · rename_i text htext
    split at h
    · cases h
    · rename_i hfits
      obtain ⟨groups, hgroups, h⟩ := bind_eq_ok.mp h
      obtain ⟨⟨tables, tableHeaders, names, stop⟩, htables, h⟩ := bind_eq_ok.mp h
      cases hsym : (o.isExternal || !o.stripAll) with
      | true =>
        have hhas : hasSymbols o = true := hsym
        simp only [hsym, if_true] at h htables
        split at h
        · cases h
        · rename_i hcount
          obtain ⟨⟨entry, warning⟩, hentry, ⟨⟩⟩ := bind_pure_eq_ok.mp h
          have hsymbols : symbolsOf t l o = listed t l o.isExternal := if_pos hhas
          refine ⟨⟨text, groups, tableHeaders, _, names, stop⟩, htext, rfl,
            Nat.le_of_not_lt hfits, rfl, ⟨warning, hentry⟩, hgroups, ?_, rfl, rfl,
            Nat.lt_of_not_le hcount, ?_, rfl⟩
          · rw [hsymbols]
            exact htables
          · rw [if_pos hhas, hsymbols]
            exact ⟨rfl, rfl, rfl, rfl⟩
      | false =>
        have hhas : hasSymbols o = false := hsym
        simp only [hsym, Bool.false_eq_true, if_false] at h htables
        split at h
        · cases h
        · rename_i hcount
          obtain ⟨⟨entry, warning⟩, hentry, ⟨⟩⟩ := bind_pure_eq_ok.mp h
          have hsymbols : symbolsOf t l o = ([], .empty) := if_neg (by rw [hhas]; decide)
          refine ⟨⟨text, groups, tableHeaders, [], names, stop⟩, htext, rfl,
            Nat.le_of_not_lt hfits, rfl, ⟨warning, hentry⟩, hgroups, ?_, rfl, rfl,
            Nat.lt_of_not_le hcount, ?_, rfl⟩
          · rw [hsymbols]
            exact htables
          · rw [if_neg (by rw [hhas]; decide)]
            exact ⟨rfl, rfl, rfl, rfl⟩
  · cases h

/-! ## Reading an assembly -/

theorem getElem?_sections (front layout behind : List SectionHeader) {tables : List SectionHeader}
    {names : SectionHeader} (hn : tables.length = n) (i : Nat) :
    (front ++ layout ++ tables ++ [names] ++ behind)[front.length + layout.length + n + i]? =
      (names :: behind)[i]? := by
  have hlength : (front ++ layout ++ tables).length = front.length + layout.length + n := by
    rw [length_append, length_append, hn]
  rw [append_assoc, singleton_append, getElem?_append_right (by omega), hlength,
    Nat.add_sub_cancel_left]

namespace Assembled

variable {a : Assembly}

theorem valid_layout (a : Assembly) (l : Layout) (o : Options) : (a.layout l o).2.Valid :=
  ((extends_frontSections ..).trans (extends_layoutSections ..)).valid valid_empty

variable (ha : Assembled t l o hosts p a)
include ha

theorem extends_tables : (a.layout l o).2.Extends a.names :=
  (relocationTables_ok ha.tables).1

theorem length_tables : a.tables.length = a.groups.length :=
  (relocationTables_ok ha.tables).2.2.1

theorem packed_tables : Packed l.fileSize a.stop
    (p.relocations.map fun table => Part.span ⟨table.offset, table.entries.flatMap (·.bytes)⟩) :=
  (relocationTables_ok ha.tables).2.2.2.1

/-- The table of names of sections has all names up to that of its own section. -/
theorem extends_names : a.allNames.2.Extends p.names := by
  have hbehind := ha.behind
  split at hbehind
  · rw [hbehind.2.2.1]
    exact (extends_addString ..).trans (extends_addString ..)
  · rw [hbehind.2.2.1]
    exact .refl _

theorem extends_all : a.names.Extends p.names :=
  (extends_addString ..).trans ha.extends_names

theorem getElem?_behind (i : Nat) :
    p.sections[p.namesIndex + i]? = (a.namesHeader p :: a.symbols)[i]? := by
  rw [ha.sections, ha.namesIndex]
  exact getElem?_sections _ _ _ ha.length_tables i

theorem holdsGroup (hg : a.groups[i]? = some g) : ∃ table header, p.relocations[i]? = some table ∧
      a.tables[i]? = some header ∧
      HoldsGroup t l (symbolsOf t l o).1 (p.namesIndex + 1) p.names g table header := by
  obtain ⟨table, header, htable, hheader, hholds⟩ :=
    (relocationTables_ok ha.tables).2.2.2.2.2 (valid_layout a l o) i g hg
  exact ⟨table, header, htable, hheader, { hholds with name := hholds.name.extends ha.extends_all }⟩

theorem length_relocations : p.relocations.length = a.groups.length :=
  (relocationTables_ok ha.tables).2.1

theorem exists_group (hi : a.tables[i]? = some header) : ∃ g table, a.groups[i]? = some g ∧
      p.relocations[i]? = some table ∧
      HoldsGroup t l (symbolsOf t l o).1 (p.namesIndex + 1) p.names g table header := by
  obtain ⟨hlt, -⟩ := List.getElem?_eq_some_iff.mp hi
  rw [ha.length_tables] at hlt
  have hg := getElem?_eq_getElem hlt
  obtain ⟨table, header', htable, hheader, hholds⟩ := ha.holdsGroup hg
  cases hi.symm.trans hheader
  exact ⟨_, table, hg, htable, hholds⟩

end Assembled

end ArmLink.Image
