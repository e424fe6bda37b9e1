import ArmLink.Proofs.Image.Symbols
import ArmLink.Proofs.Layout.Located

/-!
# The mapping that headers describe

A loader maps the parts of the file that the headers of mapped segments tell it to map. All other
headers describe parts of these parts, at the addresses where they are mapped.
-/

namespace ArmLink

open Elf ArmLink.Span SymbolTable List

variable {h : SectionHeader} {s : Section} {a : Assembly}

def Elf.ProgramHeader.fileSpan (h : ProgramHeader) : Span := .ofLength h.offset h.fileSize

def Elf.ProgramHeader.memorySpan (h : ProgramHeader) : Span := .ofLength h.address h.memorySize

def Elf.SectionHeader.fileSpan (h : SectionHeader) : Span := .ofLength h.offset h.size

/-- One span lies in another one. -/
def Span.Within (a b : Span) : Prop := b.start ≤ a.start ∧ a.stop ≤ b.stop

namespace Image

open Layout

/-- Whether a program header is that of a mapped segment. -/
def isLoad (h : ProgramHeader) : Bool := h.type = SegmentType.load

/-- The part of the file lies in that of a mapped segment, which puts it at the address: addresses
and offsets differ by as much as those of the segment. It lies in that of no other mapped segment,
unless it is empty. -/
def Plan.Maps (p : Plan) (file : Span) (address : Nat) : Prop :=
  ∃ (i : Nat) (load : ProgramHeader), p.segments[i]? = some load ∧ isLoad load = true ∧
    file.Within load.fileSpan ∧
    (address : Int) - file.start = load.address - load.offset ∧
    (file.start < file.stop → ∀ (j : Nat) other, p.segments[j]? = some other → isLoad other = true →
      file.Within other.fileSpan → j = i)

/-- The headers of a file describe one mapping. -/
structure Coherent (p : Plan) : Prop where
  count : p.segments.length = p.front.headerCount
  /-- the header and the program headers end before the first section -/
  headers : FileHeader.byteSize + p.segments.length * ProgramHeader.byteSize ≤ headerSpace
  interpreter : ∀ offset path, p.front.interpreter = some (offset, path) →
    offset + path.length ≤ headerSpace
  note : ∀ offset size, p.front.note = some (offset, size) → offset + noteSize size ≤ headerSpace
  /-- the program headers, the path, the note and the dynamic section are mapped -/
  segments : ∀ h ∈ p.segments,
    h.type ∈ [SegmentType.phdr, SegmentType.interp, SegmentType.note, SegmentType.dynamic] →
      p.Maps h.fileSpan h.address
  sections : ∀ h ∈ p.sections, h.flags &&& SectionFlags.alloc ≠ 0 → h.type ≠ SectionType.noBits →
    p.Maps h.fileSpan h.address
  loads : (p.segments.filter isLoad).Pairwise fun a b =>
    a.memorySpan.stop ≤ b.memorySpan.start ∧ a.fileSpan.stop ≤ b.fileSpan.start

variable {t t₀ t₁ t₂ : SymbolTable} {l : Layout} {fills : List Fill} {o : Options}
  {hosts : List HostRelocation} {p : Plan} {e : Extent}

/-! ## Mapped segments -/

theorem isLoad_loadHeader (h : Computed t l t₁ t₀ fills) (he : e ∈ l.extents) :
    isLoad (loadHeader e) = true := by
  have hsegment : e.segment ∈ Segment.loads := h.arranged.segments ▸ mem_map_of_mem he
  have hloads : ∀ segment ∈ Segment.loads, segment.type = SegmentType.load := by decide
  exact decide_eq_true (hloads _ hsegment)

/-- What stands in front of the first section is described there, and by headers of its own. -/
theorem mem_frontHeaders (hplan : Planned t₂ l o p) {base : Nat} {h : ProgramHeader}
    (hmem : h ∈ frontHeaders base p.front) :
    h.address = base + h.offset ∧ h.offset + h.fileSize ≤ headerSpace ∧ isLoad h = false := by
  obtain ⟨hheaders, hinterpreter, hnote⟩ := hplan.front_fits
  revert h
  simp only [frontHeaders, forall_mem_append]
  refine ⟨?_, ?_⟩
  · split
    · rename_i offset path hpath
      simp only [forall_mem_cons]
      exact ⟨⟨rfl, hheaders, rfl⟩, ⟨rfl, hinterpreter _ _ hpath, rfl⟩, forall_mem_nil _⟩
    · exact forall_mem_nil _
  · split
    · rename_i offset size hsize
      simp only [forall_mem_cons]
      exact ⟨⟨rfl, hnote _ _ hsize, rfl⟩, forall_mem_nil _⟩
    · exact forall_mem_nil _

theorem mem_sectionSegments {h : ProgramHeader} (hmem : h ∈ sectionSegments l) :
    isLoad h = false ∧ (h.type = SegmentType.tls ∨ ∃ s, l.section? SectionName.dynamic = some s ∧
      h.fileSpan = .ofLength (sectionOffset l s) s.length ∧ h.address = s.address) := by
  simp only [sectionSegments, mem_append] at hmem
  rcases hmem with hmem | hmem
  · split at hmem
    · rename_i s hs
      rw [mem_singleton.mp hmem]
      exact ⟨rfl, .inr ⟨s, hs, rfl, rfl⟩⟩
    · cases hmem
  · split at hmem
    · rw [mem_singleton.mp hmem]
      exact ⟨rfl, .inl rfl⟩
    · cases hmem

theorem segments_eq (hplan : Planned t₂ l o p) (hmode : o.isExternal = false) :
    ∃ text, l.extent? .text = some text ∧
      p.segments = frontHeaders text.address p.front ++ l.extents.map loadHeader
        ++ sectionSegments l ++ [segmentHeader .stack 0 0 0 Segment.stack.alignment.value] := by
  obtain ⟨text, htext, hsegments⟩ := hplan.segments
  rw [hmode] at hsegments
  exact ⟨text, htext, hsegments⟩

theorem filter_isLoad (h : Computed t l t₁ t₀ fills) (hplan : Planned t₂ l o p)
    (hmode : o.isExternal = false) : p.segments.filter isLoad = l.extents.map loadHeader := by
  obtain ⟨text, -, hsegments⟩ := segments_eq hplan hmode
  have hfront : (frontHeaders text.address p.front).filter isLoad = [] :=
    filter_eq_nil_iff.mpr fun h hh => Bool.eq_false_iff.mp (mem_frontHeaders hplan hh).2.2
  have hextents : (l.extents.map loadHeader).filter isLoad = l.extents.map loadHeader :=
    filter_eq_self.mpr (forall_mem_map.mpr fun e he => isLoad_loadHeader h he)
  have hsections : (sectionSegments l).filter isLoad = [] :=
    filter_eq_nil_iff.mpr fun h hh => Bool.eq_false_iff.mp (mem_sectionSegments hh).1
  rw [hsegments, filter_append, filter_append, filter_append, hfront, hextents,
    hsections, nil_append, append_nil]
  exact append_nil _

theorem pairwise_loads (h : Computed t l t₁ t₀ fills) :
    (l.extents.map loadHeader).Pairwise fun a b =>
      a.memorySpan.stop ≤ b.memorySpan.start ∧ a.fileSpan.stop ≤ b.fileSpan.start := by
  have hpacked := pairwise_map.mp h.arranged.packed.pairwise
  refine pairwise_map.mpr (hpacked.imp_of_mem fun {a b} ha hb hab => ⟨hab, ?_⟩)
  -- offsets are addresses less the base, and no more is stored than is mapped
  have hbase := h.imageBase_le ha
  have hstored := (h.stored_within ha).1
  show a.fileOffset + a.fileLength ≤ b.fileOffset
  change a.address + a.length ≤ b.address at hab
  rw [h.fileOffset_eq ha, h.fileOffset_eq hb]
  omega

/-! ## Parts of the file -/

/-- What lies in the stored part of a segment, at an address that runs in parallel, is mapped by the
header of the segment. -/
theorem maps_of_extent (h : Computed t l t₁ t₀ fills) (hplan : Planned t₂ l o p)
    (hmode : o.isExternal = false) (he : e ∈ l.extents) {file : Span} {address : Nat}
    (hstart : e.fileOffset ≤ file.start) (hstop : file.stop ≤ e.fileOffset + e.fileLength)
    (haddress : address = file.start + l.imageBase) : p.Maps file address := by
  have hfilter := filter_isLoad h hplan hmode
  have hmem : loadHeader e ∈ p.segments.filter isLoad := hfilter ▸ mem_map_of_mem he
  obtain ⟨hsegment, hload⟩ := mem_filter.mp hmem
  obtain ⟨i, hi⟩ := getElem?_of_mem hsegment
  have hbase := h.imageBase_le he
  have hoffset := h.fileOffset_eq he
  refine ⟨i, loadHeader e, hi, hload, ⟨hstart, hstop⟩, ?_, fun hne j other hj hother hwithin => ?_⟩
  · simp only [loadHeader]
    omega
  · -- two mapped segments share no byte of the file
    have hpairwise := pairwise_filter.mp (hfilter ▸ pairwise_loads h)
    rw [pairwise_iff_getElem] at hpairwise
    obtain ⟨hilt, hieq⟩ := List.getElem?_eq_some_iff.mp hi
    obtain ⟨hjlt, hjeq⟩ := List.getElem?_eq_some_iff.mp hj
    obtain ⟨hwstart, hwstop⟩ := hwithin
    simp only [ProgramHeader.fileSpan, ofLength] at hwstart hwstop
    rcases Nat.lt_trichotomy i j with hlt | heq | hlt
    · have hapart := (hpairwise i j hilt hjlt hlt (hieq ▸ hload) (hjeq ▸ hother)).2
      rw [hieq, hjeq] at hapart
      change e.fileOffset + e.fileLength ≤ other.offset at hapart
      omega
    · exact heq.symm
    · have hapart := (hpairwise j i hjlt hilt hlt (hjeq ▸ hother) (hieq ▸ hload)).2
      rw [hieq, hjeq] at hapart
      change other.offset + other.fileSize ≤ e.fileOffset at hapart
      omega

theorem mem_of_extent? {segment : Segment} (h : l.extent? segment = some e) :
    e ∈ l.extents ∧ e.segment = segment :=
  ⟨mem_of_find?_eq_some h, by simpa using find?_some h⟩

/-- What stands in front of the first section is mapped with the code. -/
theorem maps_front (h : Computed t l t₁ t₀ fills) (hplan : Planned t₂ l o p)
    (hmode : o.isExternal = false) {text : Extent} (htext : l.extent? .text = some text)
    {offset size : Nat} (hfits : offset + size ≤ headerSpace) :
    p.Maps (.ofLength offset size) (text.address + offset) := by
  obtain ⟨hmem, hsegment⟩ := mem_of_extent? htext
  have haddress := h.arranged.first text hmem hsegment
  have hspace := h.headers
  -- the section of code lies in the stored part of the segment, behind the headers
  obtain ⟨s, hs, hcode, htype⟩ := h.exists_code
  have hstored := (h.stored_within hmem).2 s hs (hcode.trans hsegment.symm)
  rw [if_neg htype] at hstored
  have hstart := (h.section_within hmem hs (hcode.trans hsegment.symm)).1
  have hbase : l.imageBase = text.address := by rw [imageBase, haddress]
  have hoffset := h.fileOffset_eq hmem
  refine maps_of_extent h hplan hmode hmem ?_ ?_ ?_ <;> simp only [ofLength] <;> omega

theorem maps_section (h : Computed t l t₁ t₀ fills) (hplan : Planned t₂ l o p)
    (hmode : o.isExternal = false) (hs : s ∈ l.sections) (htype : s.type ≠ SectionType.noBits) :
    p.Maps (.ofLength (sectionOffset l s) s.length) s.address := by
  have hload := of_decide_eq_true (mem_filter.mp (h.mem_loaded hs htype)).2
  have htls : s.segment ≠ .tls := fun heq => by
    rw [heq] at hload
    revert hload
    decide
  rw [← h.arranged.segments] at hload
  obtain ⟨e', he', hsegment'⟩ := mem_map.mp hload
  obtain ⟨e, he⟩ : ∃ e, l.extent? s.segment = some e := by
    refine Option.isSome_iff_exists.mp (find?_isSome.mpr ⟨e', he', ?_⟩)
    exact decide_eq_true hsegment'
  obtain ⟨hmem, hsegment⟩ := mem_of_extent? he
  have hstored := (h.stored_within hmem).2 s hs hsegment.symm
  rw [if_neg htype] at hstored
  have hstart := (h.section_within hmem hs hsegment.symm).1
  have hbase := h.imageBase_le hmem
  have hoffset := h.fileOffset_eq hmem
  have hplace : sectionOffset l s = e.fileOffset + s.address - e.address := by
    rw [sectionOffset, if_neg htls, he]
  refine maps_of_extent h hplan hmode hmem ?_ ?_ ?_ <;> simp only [ofLength] <;> omega

theorem stored_of_dynamic (h : Computed t l t₁ t₀ fills)
    (hs : l.section? SectionName.dynamic = some s) : s.type ≠ SectionType.noBits := by
  have hmem : s.plain ∈ sectionsOf t₁ :=
    h.map_plain ▸ mem_map_of_mem (mem_of_find?_eq_some hs)
  have hname : s.name = SectionName.dynamic := by simpa using find?_some hs
  obtain ⟨⟨kind, segment, grouping⟩, hentry, hkind⟩ := mem_flatMap.mp hmem
  obtain ⟨name, symbols, heq, -, hgrouping⟩ := mem_sectionsOfKind hkind
  intro htype
  have hunstored : isUnstored kind = true := by
    rw [← type_newSection name kind segment symbols, ← heq]
    exact htype
  -- the sections that are not stored have names of their own
  have hnames : ∀ e ∈ sectionOrder, isUnstored e.1 = true →
      e.2.2 ∈ [.together SectionName.bss, .together SectionName.noPtrBss,
        .together SectionName.tbss] := by decide
  have hshared := hnames _ hentry hunstored
  have hplain : s.name = name := congrArg Section.name heq
  rw [hname] at hplain
  simp only [mem_cons, not_mem_nil, or_false] at hshared
  rcases hshared with rfl | rfl | rfl <;> rw [hgrouping] at hplain <;> revert hplain <;> decide

/-! ## All headers -/

/-- The headers before those of the layout describe what stands in front of the first section. -/
theorem mem_frontSections (hplan : Planned t₂ l o p) {base : Nat} {names : StringTable}
    (hmem : h ∈ (frontSections base p.front names).1)
    (hflags : h.flags &&& SectionFlags.alloc ≠ 0) :
    h.address = base + h.offset ∧ h.offset + h.size ≤ headerSpace := by
  obtain ⟨-, hinterpreter, hnote⟩ := hplan.front_fits
  revert h
  simp only [frontSections, cons_append, forall_mem_cons, forall_mem_append]
  refine ⟨fun hnot => absurd rfl hnot, ?_, ?_⟩
  · split
    · rename_i offset path hpath
      simp only [forall_mem_singleton]
      exact fun _ => ⟨trivial, hinterpreter _ _ hpath⟩
    · exact forall_mem_nil _
  · split
    · rename_i offset size hsize
      simp only [forall_mem_singleton]
      exact fun _ => ⟨trivial, hnote _ _ hsize⟩
    · exact forall_mem_nil _

/-- The tables of the file itself take up no memory. -/
theorem flags_of_mem_tables (ha : Assembled t₂ l o hosts p a)
    (hmem : h ∈ a.tables ∨ h ∈ a.symbols) : h.flags &&& SectionFlags.alloc = 0 := by
  rcases hmem with hmem | hmem
  · obtain ⟨i, hi⟩ := getElem?_of_mem hmem
    obtain ⟨g, table, -, -, hgroup⟩ := ha.exists_group hi
    rw [hgroup.kind.2]
    rfl
  · have hbehind := ha.behind
    split at hbehind
    · rw [hbehind.2.1] at hmem
      simp only [symbolSections, mem_cons, not_mem_nil, or_false] at hmem
      rcases hmem with rfl | rfl <;> exact Nat.zero_and _
    · rw [hbehind.2.1] at hmem
      cases hmem

theorem mem_sections_of_alloc (ha : Assembled t₂ l o hosts p a) (hmem : h ∈ p.sections)
    (hflags : h.flags &&& SectionFlags.alloc ≠ 0) :
    h ∈ (a.front l o).1 ∨ ∃ s ∈ l.sections, ∃ name, h = layoutSection l o.isExternal s name := by
  rw [ha.sections] at hmem
  simp only [mem_append, mem_singleton] at hmem
  rcases hmem with (((hmem | hmem) | hmem) | rfl) | hmem
  · exact .inl hmem
  · obtain ⟨i, hi⟩ := getElem?_of_mem hmem
    obtain ⟨hlt, -⟩ := List.getElem?_eq_some_iff.mp hi
    rw [Assembly.layout, length_layoutSections] at hlt
    have hs := getElem?_eq_getElem hlt
    obtain ⟨name, hname, -⟩ := getElem?_layoutSections (l := l) o.isExternal
      ((extends_frontSections ..).valid StringTable.valid_empty) hs
    exact .inr ⟨_, getElem_mem hlt, name, Option.some.inj (hi.symm.trans hname)⟩
  · exact absurd (flags_of_mem_tables ha (.inl hmem)) hflags
  · exact absurd (Nat.zero_and _) hflags
  · exact absurd (flags_of_mem_tables ha (.inr hmem)) hflags

/-- **One mapping.** The headers of every planned file that is mapped describe one mapping: there is
room for what stands before the first section, what is stored and mapped lies in one mapped segment
at its address there, and the mapped segments follow each other. -/
theorem coherent_of_plan {relocatable : Bool} {first : Nat} (hs : t.HasSentinels)
    (hcompute : compute t relocatable first = .ok (l, t₁)) (hmode : o.isExternal = false)
    (hplan : plan t₂ l o hosts = .ok p) : Coherent p := by
  obtain ⟨t₀, fills, hc⟩ := compute_ok hs hcompute
  obtain ⟨a, ha⟩ := plan_assembled hplan
  have hplanned := plan_ok hplan
  obtain ⟨hheaders, hinterpreter, hnote⟩ := hplanned.front_fits
  have hcount := hplanned.count_segments (length_extents hc)
  refine ⟨hcount, hcount ▸ hheaders, hinterpreter, hnote, fun h hh htype => ?_,
    fun h hh hflags htype => ?_, filter_isLoad hc hplanned hmode ▸ pairwise_loads hc⟩
  · obtain ⟨text, htext, hsegments⟩ := segments_eq hplanned hmode
    rw [hsegments] at hh
    simp only [List.mem_append, List.mem_singleton] at hh
    rcases hh with ((hh | hh) | hh) | rfl
    · obtain ⟨haddress, hfits, -⟩ := mem_frontHeaders hplanned hh
      rw [haddress]
      exact maps_front hc hplanned hmode htext hfits
    · -- mapped segments have another type
      obtain ⟨e, he, rfl⟩ := List.mem_map.mp hh
      rw [of_decide_eq_true (isLoad_loadHeader hc he)] at htype
      exact absurd htype (by decide)
    · rcases (mem_sectionSegments hh).2 with htls | ⟨s, hs, hspan, haddress⟩
      · rw [htls] at htype
        exact absurd htype (by decide)
      · rw [hspan, haddress]
        exact maps_section hc hplanned hmode (List.mem_of_find?_eq_some hs)
          (stored_of_dynamic hc hs)
    · exact absurd htype (by decide)
  · rcases mem_sections_of_alloc ha hh hflags with hfront | ⟨s, hs, name, rfl⟩
    · rw [Assembly.front, ← hplanned.front] at hfront
      obtain ⟨haddress, hfits⟩ := mem_frontSections hplanned hfront hflags
      rw [haddress]
      exact maps_front hc hplanned hmode ha.text hfits
    · have haddress : (layoutSection l o.isExternal s name).address = s.address := by
        rw [hmode]
        rfl
      rw [haddress]
      exact maps_section hc hplanned hmode hs htype

/-- Code, a dynamic section and zeros. -/
def mappedSample : SymbolTable :=
  ⟨SymbolTable.initial.symbols ++ (
    [{ name := "main", version := 0, kind := .text, size := 8, data := [1, 2], reachable := true },
     { name := SectionName.dynamic, version := 0, kind := .writableTable, size := 16,
       data := [5, 0, 0, 0], reachable := true },
     { name := "buffer", version := 0, kind := .bss, size := 3, reachable := true }] :
      List Symbol).toArray⟩

/-- Options of a program with a dynamic loader and a build id. -/
def mappedOptions : Options where
  entry := .address 0
  buildId := .fast

/-- The headers of a program with all that may stand in front of its code. -/
theorem coherent_of_plan_sample :
    mappedSample.HasSentinels ∧ mappedOptions.isExternal = false ∧ ∃ l t₁ p,
      compute mappedSample mappedOptions.isRelocatable mappedOptions.firstSectionIndex =
        .ok (l, t₁) ∧
      plan t₁ l mappedOptions [] = .ok p ∧
      p.segments.map (·.type) = [SegmentType.phdr, SegmentType.interp, SegmentType.note,
        SegmentType.load, SegmentType.load, SegmentType.load, SegmentType.dynamic,
        SegmentType.gnuStack] ∧
      Coherent p := by
  have hs : mappedSample.HasSentinels := by decide +kernel
  obtain ⟨l, t₁, hcompute, p, hplan, htypes⟩ : ∃ l t₁, compute mappedSample
      mappedOptions.isRelocatable mappedOptions.firstSectionIndex = .ok (l, t₁) ∧
        ∃ p, plan t₁ l mappedOptions [] = .ok p ∧ p.segments.map (·.type) =
          [SegmentType.phdr, SegmentType.interp, SegmentType.note, SegmentType.load,
            SegmentType.load, SegmentType.load, SegmentType.dynamic, SegmentType.gnuStack] := by
    decide +kernel
  exact ⟨hs, rfl, l, t₁, p, hcompute, hplan, htypes, coherent_of_plan hs hcompute rfl hplan⟩

end Image

end ArmLink
