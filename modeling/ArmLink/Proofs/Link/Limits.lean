import ArmLink.Proofs.Image.Fields
import ArmLink.Proofs.Image.Listing
import ArmLink.Proofs.Layout.Located
import ArmLink.Proofs.Link.Alignments

/-!
# Numbers that fit their fields

Layout checks that the mapped segments lie within 32-bit addresses. The numbers in the headers and
tables of the file are not checked again: they fit their four bytes as far as they stay within these
segments, and lose their high bits otherwise. For a host linker addresses are counted from their
sections, and what lies before the section it is counted from wraps around.
-/

namespace ArmLink

open List

variable {l : Layout} {o : Options} {placed : Placed} {n : Nat} {external : Bool} {plan : Plan}

namespace Resolve

open SymbolTable

variable {t t' : SymbolTable} {hosts : List HostRelocation}

/-! ## Relocations for a host linker -/

/-- A relocation for the host linker patches bytes of a symbol that is kept. -/
structure PatchesKept (t : SymbolTable) (host : HostRelocation) : Prop where
  reachable : (t.get host.owner).reachable = true
  offset_le : host.offset ≤ (t.get host.owner).size
  relocations : (t.get host.owner).relocations ≠ []

theorem patchesKept_of_apply (h : apply t l external = .ok (t', hosts)) :
    ∀ host ∈ hosts, PatchesKept t host := by
  intro host hhost
  obtain ⟨id, r, v, outcome, hsite, hr, hsettle⟩ := leavesBehind_of_apply h host hhost
  have hstop := stop_le_of_settle hsettle
  obtain ⟨resolved, -, hrecord⟩ := bind_eq_ok.mp hsettle
  cases resolved with
  | value => cases hrecord
  | deferred =>
    simp only [record] at hrecord
    split at hrecord
    · cases hrecord
      exact ⟨(Bool.and_eq_true_iff.mp hsite).1, Nat.le_trans (Nat.le_add_right ..) hstop,
        ne_nil_of_mem hr⟩
    · cases hrecord

end Resolve

namespace Link

open Elf Image Layout Resolve ArmLink.Span SymbolTable

/-! ## Limits -/

/-- What the numbers in the headers and tables of a file stay within. Only the ends of the mapped
segments are checked. -/
inductive Limit (o : Options) (placed : Placed) (plan : Plan) : Nat → Prop where
  | entry {address : Nat} (hentry : o.entry = .address address) : Limit o placed plan address
  /-- the start of the program, given as a symbol without a place of its own -/
  | start {name : String} {id : SymbolId} {address : Nat} (hentry : o.entry = .symbol name)
      (hfind : placed.table.find? name 0 = some id) (hid : id ∉ placed.layout.symbols)
      (hv : (placed.table.get id).value = some address) : Limit o placed plan address
  | file : Limit o placed plan plan.headersOffset
  | segment {e : Extent} (he : e ∈ placed.layout.extents) : Limit o placed plan e.stop
  | threadLocal {s : Section} (hs : s ∈ placed.layout.sections) (hsegment : s.segment = .tls) :
    Limit o placed plan (s.address + s.length)
  | symbol {id : SymbolId} (hid : id ∉ placed.layout.symbols)
      (hreach : (placed.table.get id).reachable = true) :
    Limit o placed plan ((placed.table.get id).value.getD 0 + (placed.table.get id).size)
  /-- for a host linker, a symbol within another one that lies before the section around them -/
  | symbolBefore {id : SymbolId} {i : SectionId} {value : Nat} (hmode : o.isExternal = true)
      (hid : id ∉ placed.layout.symbols) (hreach : (placed.table.get id).reachable = true)
      (hkind : (placed.table.get id).kind ≠ .tlsBss)
      (hvalue : (placed.table.get id).value = some value)
      (hsection : sectionOf? placed.table id = some i)
      (hbefore : value < (placed.layout.getSection i).address) :
    Limit o placed plan (Word64.minus value (placed.layout.getSection i).address)
  /-- for a host linker, a place to patch that lies before its section -/
  | patchBefore {host : HostRelocation} {i : SectionId} {value : Nat}
      (hhost : host ∈ placed.relocations) (hid : host.owner ∉ placed.layout.symbols)
      (hvalue : (placed.table.get host.owner).value = some value)
      (hsection : (placed.table.get host.owner).sectionId = some i)
      (hbefore : value + host.offset < (placed.layout.getSection i).address) :
    Limit o placed plan (Word64.minus (value + host.offset) (placed.layout.getSection i).address)

/-- A number is at most one of the limits. -/
def Within (o : Options) (placed : Placed) (plan : Plan) (n : Nat) : Prop :=
  ∃ limit, Limit o placed plan limit ∧ n ≤ limit

theorem Limit.within {limit : Nat} (h : Limit o placed plan limit) (hle : n ≤ limit) :
    Within o placed plan n := ⟨limit, h, hle⟩

theorem Within.mono {k : Nat} (h : Within o placed plan n) (hle : k ≤ n) :
    Within o placed plan k := by
  obtain ⟨limit, hlimit, hn⟩ := h
  exact ⟨limit, hlimit, Nat.le_trans hle hn⟩

variable {u t t₀ : SymbolTable} {fills : List Fill} {id : SymbolId} {s : Section}

/-! ## Headers -/

variable (o placed plan)

/-- The numbers of a program header are within the limits. -/
def SegmentWithin (h : ProgramHeader) : Prop :=
  Within o placed plan h.offset ∧ Within o placed plan h.address ∧ Within o placed plan h.fileSize ∧
    Within o placed plan h.memorySize

/-- The numbers of a section header are within the limits. -/
def HeaderWithin (h : SectionHeader) : Prop :=
  Within o placed plan h.address ∧ Within o placed plan h.offset ∧ Within o placed plan h.size

variable {o placed plan}

/-- What is stored of sections and tables lies before the section headers. -/
theorem fileSize_le (hplan : Planned placed.table placed.layout o plan) :
    placed.layout.fileSize ≤ plan.headersOffset := by
  have hmem : (⟨plan.headersOffset, plan.sections.flatMap (·.bytes)⟩ : Part) ∈
      plan.tailContents := by
    simp [Plan.tailContents]
  exact (hplan.tail.within (mem_map_of_mem hmem)).1

section

variable (hc : Computed u placed.layout t t₀ fills)
include hc

theorem within_section (hs : s ∈ placed.layout.sections) :
    Within o placed plan (s.address + s.length) := by
  by_cases hsegment : s.segment = .tls
  · exact Limit.within (.threadLocal hs hsegment) (Nat.le_refl _)
  · obtain ⟨e, he, -, hstop, -⟩ := hc.exists_extent (hc.mem_loaded_of_ne_tls hs hsegment)
    exact Limit.within (.segment he) hstop

section

variable (hplan : Planned placed.table placed.layout o plan)
include hplan

theorem within_offset (hs : s ∈ placed.layout.sections) :
    Within o placed plan (sectionOffset placed.layout s) := by
  rw [sectionOffset]
  split
  · exact Limit.within .file (fileSize_le hplan)
  · split
    · rename_i e he
      have hoffset := hc.fileOffset_eq (mem_of_find?_eq_some he)
      exact (within_section hc hs).mono (by omega)
    · exact Limit.within .file (Nat.zero_le _)

section Front

variable {text : Extent} (htext : placed.layout.extent? .text = some text)
include htext

/-- What lies before the first section has its address, its offset and its size in bounds. -/
theorem within_front {offset size : Nat} (hfits : offset + size ≤ headerSpace) :
    Within o placed plan (text.address + offset) ∧ Within o placed plan offset ∧
      Within o placed plan size := by
  have hmem := mem_of_find?_eq_some htext
  have hsegment : text.segment = .text := by simpa using find?_some htext
  have haddress := hc.arranged.first text hmem hsegment
  have hspace := hc.headers
  have hstart := (hc.arranged.holds text hmem).packed.le
  have hfile := hc.headerSpace_le_fileSize
  have hheaders := fileSize_le hplan
  exact ⟨Limit.within (.segment hmem) (by omega), Limit.within .file (by omega),
    Limit.within .file (by omega)⟩

theorem within_frontHeaders :
    ∀ h ∈ frontHeaders text.address plan.front, SegmentWithin o placed plan h := by
  obtain ⟨hheaders, hinterpreter, hnote⟩ := hplan.front_fits
  have hfront {offset size alignment : Nat} {segment : Segment}
      (hfits : offset + size ≤ headerSpace) :
      SegmentWithin o placed plan
        (segmentHeader segment offset (text.address + offset) size alignment) := by
    obtain ⟨haddress, hoffset, hsize⟩ := within_front hc hplan htext hfits
    exact ⟨hoffset, haddress, hsize, hsize⟩
  simp only [frontHeaders, forall_mem_append]
  refine ⟨?_, ?_⟩
  · split
    · rename_i offset path hpath
      simp only [forall_mem_cons]
      exact ⟨hfront hheaders, hfront (hinterpreter _ _ hpath), forall_mem_nil _⟩
    · exact forall_mem_nil _
  · split
    · rename_i offset size hsize
      simp only [forall_mem_cons]
      exact ⟨hfront (hnote _ _ hsize), forall_mem_nil _⟩
    · exact forall_mem_nil _

theorem within_frontSections (names : StringTable) :
    ∀ h ∈ (frontSections text.address plan.front names).1, HeaderWithin o placed plan h := by
  obtain ⟨-, hinterpreter, hnote⟩ := hplan.front_fits
  have hzero : Within o placed plan 0 := Limit.within .file (Nat.zero_le _)
  simp only [frontSections, cons_append, forall_mem_cons, forall_mem_append]
  refine ⟨⟨hzero, hzero, hzero⟩, ?_, ?_⟩
  · split
    · rename_i offset path hpath
      simp only [forall_mem_singleton]
      exact within_front hc hplan htext (hinterpreter _ _ hpath)
    · exact forall_mem_nil _
  · split
    · rename_i offset size hsize
      simp only [forall_mem_singleton]
      exact within_front hc hplan htext (hnote _ _ hsize)
    · exact forall_mem_nil _

end Front

theorem within_segments : ∀ h ∈ plan.segments, SegmentWithin o placed plan h := by
  obtain ⟨text, htext, hsegments⟩ := hplan.segments
  have hzero : Within o placed plan 0 := Limit.within .file (Nat.zero_le _)
  have hsection {s : Section} (hs : s ∈ placed.layout.sections) :
      Within o placed plan s.address ∧ Within o placed plan s.length :=
    ⟨(within_section hc hs).mono (Nat.le_add_right ..),
      (within_section hc hs).mono (Nat.le_add_left ..)⟩
  rw [hsegments, segmentHeaders]
  split
  · exact forall_mem_nil _
  · simp only [forall_mem_append, forall_mem_singleton]
    refine ⟨⟨⟨within_frontHeaders hc hplan htext, fun h hh => ?_⟩, fun h hh => ?_⟩,
      hzero, hzero, hzero, hzero⟩
    · obtain ⟨e, he, rfl⟩ := mem_map.mp hh
      have hoffset := hc.fileOffset_eq he
      have hlength := (hc.stored_within he).1
      have hend {n : Nat} (hn : n ≤ e.stop) : Within o placed plan n :=
        Limit.within (.segment he) hn
      rw [Extent.stop] at hend
      refine ⟨hend ?_, hend ?_, hend ?_, hend ?_⟩ <;> simp only [loadHeader] <;> omega
    · simp only [sectionSegments, mem_append] at hh
      rcases hh with hh | hh
      · split at hh
        · rename_i s hs
          rw [mem_singleton.mp hh]
          have hmem := mem_of_find?_eq_some hs
          obtain ⟨haddress, hlength⟩ := hsection hmem
          exact ⟨within_offset hc hplan hmem, haddress, hlength, hlength⟩
        · cases hh
      · split at hh
        · rename_i s hs
          rw [mem_singleton.mp hh]
          have hmem := mem_of_find?_eq_some hs
          obtain ⟨haddress, hlength⟩ := hsection hmem
          exact ⟨within_offset hc hplan hmem, haddress, hzero, hlength⟩
        · cases hh

theorem within_sections (hitems : Itemized placed.table placed.layout o placed.relocations plan) :
    ∀ h ∈ plan.sections, HeaderWithin o placed plan h := by
  intro h hh
  have hzero : Within o placed plan 0 := Limit.within .file (Nat.zero_le _)
  rcases hitems.sections h hh with ⟨text, htext, hmem⟩ | ⟨s, hs, name, rfl⟩ | ⟨haddress, hstop⟩
  · exact within_frontSections hc hplan htext _ h hmem
  · refine ⟨?_, within_offset hc hplan hs, (within_section hc hs).mono (Nat.le_add_left ..)⟩
    simp only [layoutSection]
    split
    · exact hzero
    · exact (within_section hc hs).mono (Nat.le_add_right ..)
  · exact ⟨haddress ▸ hzero, Limit.within .file (by omega), Limit.within .file (by omega)⟩

end

/-! ## Symbols and relocations -/

section

variable (hkeeps : Keeps bare t placed.table)
include hkeeps

theorem within_placed (hid : id ∈ placed.layout.symbols) :
    Within o placed plan ((placed.table.get id).value.getD 0 + (placed.table.get id).size) := by
  obtain ⟨s, hs, hmem⟩ := mem_flatMap.mp hid
  have hwithin := ((hc.packed_symbols hs).within (mem_map_of_mem hmem)).2.2
  have horigin : s.origin ≤ s.address := by
    rw [Section.origin]
    split
    · exact Nat.zero_le _
    · exact Nat.le_refl _
  rw [← span_eq hkeeps] at hwithin
  change (placed.table.get id).value.getD 0 + (placed.table.get id).size ≤ _ at hwithin
  exact (within_section hc hs).mono (by omega)

theorem within_symbol (hreach : (placed.table.get id).reachable = true) :
    Within o placed plan ((placed.table.get id).value.getD 0 + (placed.table.get id).size) := by
  by_cases hid : id ∈ placed.layout.symbols
  · exact within_placed hc hkeeps hid
  · exact Limit.within (.symbol hid hreach) (Nat.le_refl _)

/-- A symbol with a place does not lie before its section, unless it is thread-local. -/
theorem address_le (hid : id ∈ placed.layout.symbols) (htls : (t.get id).kind ≠ .tlsBss)
    {i : SectionId} {value : Nat} (hvalue : (placed.table.get id).value = some value)
    (hsection : (placed.table.get id).sectionId = some i) :
    (placed.layout.getSection i).address ≤ value := by
  obtain ⟨i', s, v, hi, -, hsection', hv, hle, -⟩ := hc.section_of_mem hid htls
  rw [(hkeeps.read Symbol.sectionId fun _ => rfl).2, hsection'] at hsection
  rw [(hkeeps.read Symbol.value fun _ => rfl).2, hv] at hvalue
  cases hsection
  cases hvalue
  rwa [getSection_of_getElem? hi]

theorem within_placedAt {place : Nat × Nat} (hreach : (placed.table.get id).reachable = true)
    (h : PlacedAt placed.table placed.layout o.isExternal id place) :
    Within o placed plan place.1 := by
  have hend : Within o placed plan ((placed.table.get id).value.getD 0) :=
    (within_symbol hc hkeeps hreach).mono (Nat.le_add_right ..)
  cases h with
  | elsewhere => exact Limit.within .file (Nat.zero_le _)
  | absolute => exact hend
  | inSection hkind hvalue hsection =>
    rename_i value i
    rw [hvalue, Option.getD_some] at hend
    split
    · rename_i hcounted
      rcases Nat.lt_or_ge value (placed.layout.getSection i).address with hbefore | hle
      · refine Limit.within (.symbolBefore hcounted.1 ?_ hreach hcounted.2 hvalue hsection hbefore)
          (Nat.le_refl _)
        intro hid
        refine Nat.not_le.mpr hbefore (address_le hc hkeeps hid ?_ hvalue ?_)
        · rw [← (hkeeps.read Symbol.kind fun _ => rfl).2]
          exact hcounted.2
        · have houter : (placed.table.get id).outer = none := by
            rw [(hkeeps.read Symbol.outer fun _ => rfl).2,
              (hc.keeps.read Symbol.outer fun _ => rfl).2]
            exact (isCandidate_iff.mp (hc.mem_symbols.mp hid).1).2.2
          rwa [sectionOf?, outermost_of_outer houter] at hsection
      · exact hend.mono (Word64.minus_le hle)
    · exact hend

theorem within_listed {x : Listed}
    (hx : x ∈ (Image.listed placed.table placed.layout o.isExternal).1) :
    Within o placed plan x.entry.value ∧ Within o placed plan x.entry.size := by
  have hlists := lists_of_mem_listed hx
  have hsize := hlists.size
  have hend : Within o placed plan _ := within_symbol hc hkeeps hlists.reachable
  exact ⟨within_placedAt hc hkeeps hlists.reachable (placedAt_of_placeOf? hlists.place),
    hend.mono (by omega)⟩

theorem within_relocation {r : HostRelocation} (hmem : r ∈ placed.relocations)
    (hr : PatchesKept t r) {i : SectionId} (hi : (placed.table.get r.owner).sectionId = some i)
    {symbols : List Listed} {e : RelocationEntry}
    (h : relocationEntry placed.table symbols (placed.layout.getSection i) r = .ok e) :
    Within o placed plan e.offset := by
  have hreach := ((hkeeps.read Symbol.reachable fun _ => rfl).2 r.owner).trans hr.reachable
  have hsize := (hkeeps.read Symbol.size fun _ => rfl).2 r.owner
  have hend : Within o placed plan _ := within_symbol hc hkeeps hreach
  simp only [relocationEntry] at h
  split at h
  · cases h
  · split at h
    · cases h
    · rename_i address hv
      cases h
      rw [hv, Option.getD_some, hsize] at hend
      have hoffset := hr.offset_le
      rcases Nat.lt_or_ge (address + r.offset) (placed.layout.getSection i).address
        with hbefore | hle
      · refine Limit.within (.patchBefore hmem (fun hid => ?_) hv hi hbefore) (Nat.le_refl _)
        have hle := address_le hc hkeeps hid (hc.ne_tlsBss hid hr.relocations) hv hi
        omega
      · exact hend.mono (Nat.le_trans (Word64.minus_le hle) (by omega))

theorem within_entry (hplan : Planned placed.table placed.layout o plan) {entry : Nat}
    {warning : Option Warning}
    (h : entryAddress placed.table placed.layout o = .ok (entry, warning)) :
    Within o placed plan entry := by
  simp only [entryAddress] at h
  split at h
  · cases h
    exact Limit.within .file (Nat.zero_le _)
  · split at h
    · rename_i address hentry
      cases h
      exact Limit.within (.entry hentry) (Nat.le_refl _)
    · rename_i name hentry
      split at h
      · -- the program starts with the first section
        cases h
        obtain ⟨text, htext, -⟩ := hplan.segments
        have hmem := mem_of_find?_eq_some htext
        have hstart := (hc.arranged.holds text hmem).packed.le
        exact Limit.within (.segment hmem) (by omega)
      · rename_i id hfind
        split at h
        · cases h
        · split at h
          · cases h
          · rename_i address hv
            cases h
            by_cases hid : id ∈ placed.layout.symbols
            · have hend : Within o placed plan _ := within_placed hc hkeeps hid
              rw [hv, Option.getD_some] at hend
              exact hend.mono (Nat.le_add_right ..)
            · exact Limit.within (.start hentry (Option.filter_eq_some_iff.mp hfind).1 hid hv)
                (Nat.le_refl _)

end

end

/-- **Within the limits.** Each number in the headers and tables of a file is at most one of the
limits. -/
theorem within_of_mem_fields (h : LaidOut o u t placed)
    (hplan : Image.plan placed.table placed.layout o placed.relocations = .ok plan) :
    ∀ f ∈ plan.fields, Within o placed plan f.value := by
  obtain ⟨t₀, fills, hc⟩ := compute_ok h.sentinels h.computed
  have hitems := itemized_of_plan hplan
  have hplanned := plan_ok hplan
  have hpatches := patchesKept_of_apply h.applied
  obtain ⟨warning, hentry⟩ := hitems.entry
  simp only [Plan.fields, forall_mem_append, forall_mem_cons, forall_mem_flatMap]
  refine ⟨⟨⟨⟨⟨within_entry hc h.keeps hplanned hentry, Limit.within .file (Nat.le_refl _),
    forall_mem_nil _⟩, ?_⟩, ?_⟩, fun s hs => ?_⟩, fun table htable => ?_⟩
  · refine forall_tableFields fun header hheader start => ?_
    obtain ⟨hoffset, haddress, hfile, hmemory⟩ := within_segments hc hplanned header hheader
    simp only [programFields, forall_mem_cons]
    exact ⟨hoffset, haddress, haddress, hfile, hmemory, forall_mem_nil _⟩
  · refine forall_tableFields fun header hheader start => ?_
    obtain ⟨haddress, hoffset, hsize⟩ := within_sections hc hplanned hitems header hheader
    simp only [sectionFields, forall_mem_cons]
    exact ⟨haddress, hoffset, hsize, forall_mem_nil _⟩
  · refine forall_tableFields fun x hx start => ?_
    rw [hitems.symbols s (Option.mem_toList.mp hs)] at hx
    obtain ⟨hvalue, hsize⟩ := within_listed hc h.keeps hx
    simp only [symbolFields, forall_mem_cons]
    exact ⟨hvalue, hsize, forall_mem_nil _⟩
  · refine forall_tableFields fun e he start => ?_
    obtain ⟨r, hr, symbols, i, hi, hrelocation⟩ := hitems.relocations table htable e he
    simp only [relocationFields, forall_mem_cons]
    exact ⟨within_relocation hc h.keeps hr (hpatches r hr) hi hrelocation, forall_mem_nil _⟩

/-! ## Reading the file -/

variable {objects : List Object} {uuid : Bytes} {image : Array UInt8}

/-- The planned numbers are read without their high bits. -/
theorem numberAt_of_image (h : LaidOut o u t placed)
    (hplan : Image.plan placed.table placed.layout o placed.relocations = .ok plan)
    (huuid : uuid.length = 16) (himage : Link.image o placed uuid = .ok image) :
    ∀ f ∈ plan.fields, numberAt image f.offset 4 = f.value % 2 ^ 32 := by
  obtain ⟨t₀, fills, hc⟩ := compute_ok h.sentinels h.computed
  obtain ⟨hkeeps, happlied⟩ := apply_ok h.applied
  obtain ⟨plan', hplan', hwrite⟩ := image_eq_ok.mp himage
  cases hplan.symm.trans hplan'
  obtain ⟨id, -, -, -, hholds⟩ := holds_of_write hc hkeeps happlied (plan_ok hplan) huuid hwrite
  exact numberAt_of_mem_fields hholds

/-- **Numbers that fit their fields.** Mapped segments lie within 32-bit addresses. A number in the
headers and tables of a file is read back as it was planned if and only if it has 32 bits, and it is
at most the end of a mapped segment, or one of the other limits, which nothing checks. One of these
is what an address before the section that it is counted from wraps around to. If all limits have 32
bits, then all numbers are read back as they were planned. -/
theorem fields_read_back (hprepare : prepare o objects = .ok placed)
    (hplan : Image.plan placed.table placed.layout o placed.relocations = .ok plan)
    (huuid : uuid.length = 16) (himage : Link.image o placed uuid = .ok image) :
    (∀ e ∈ placed.layout.extents, e.stop ≤ 2 ^ 32) ∧
    (∀ f ∈ plan.fields, (numberAt image f.offset 4 = f.value ↔ f.value < 2 ^ 32) ∧
      ∃ limit, Limit o placed plan limit ∧ f.value ≤ limit) ∧
    ((∀ limit, Limit o placed plan limit → limit < 2 ^ 32) →
      ∀ f ∈ plan.fields, numberAt image f.offset 4 = f.value) := by
  obtain ⟨u, t, hlaid⟩ := laidOut_of_prepare hprepare
  obtain ⟨t₀, fills, hc⟩ := compute_ok hlaid.sentinels hlaid.computed
  have hread (f : Field) (hf : f ∈ plan.fields) :
      numberAt image f.offset 4 = f.value ↔ f.value < 2 ^ 32 := by
    rw [numberAt_of_image hlaid hplan huuid himage f hf]
    omega
  have hwithin := within_of_mem_fields hlaid hplan
  refine ⟨fun e he => (hc.arranged.holds e he).stop_le, fun f hf => ⟨hread f hf, hwithin f hf⟩, ?_⟩
  intro hlimits f hf
  obtain ⟨limit, hlimit, hle⟩ := hwithin f hf
  exact (hread f hf).mpr (Nat.lt_of_le_of_lt hle (hlimits limit hlimit))

/-- Options of a program with fixed addresses that keeps its symbols. -/
def namedOptions : Options where
  outputKind := .static
  entry := .symbol "main"

/-- A program with thread-local data. -/
def counterFile (size : Nat) : Object where
  path := "a.toml"
  symbols :=
    [programCode (Bytes.zeros 4) [.pending 0 4 .tls (some "counter") 0],
     threadData "counter" size none]
  imports := []

/-- All numbers of a small program are read back as they were planned. -/
theorem fields_read_back_sample : (Bytes.zeros 16).length = 16 ∧
    ∃ placed plan image, prepare namedOptions [counterFile 16] = .ok placed ∧
      Image.plan placed.table placed.layout namedOptions placed.relocations = .ok plan ∧
      Link.image namedOptions placed (Bytes.zeros 16) = .ok image ∧
      ⟨168, 16⟩ ∈ plan.fields ∧ numberAt image 168 4 = 16 ∧
      ∀ f ∈ plan.fields, numberAt image f.offset 4 = f.value := by
  obtain ⟨placed, hprepare, plan, hplan, hmem, hfits⟩ :
      ∃ placed, prepare namedOptions [counterFile 16] = .ok placed ∧
        ∃ plan, Image.plan placed.table placed.layout namedOptions placed.relocations = .ok plan ∧
          ⟨168, 16⟩ ∈ plan.fields ∧ ∀ f ∈ plan.fields, f.value < 2 ^ 32 := by
    decide +kernel
  obtain ⟨image, himage⟩ := exists_image hprepare ⟨plan, hplan⟩
  have huuid := Bytes.length_zeros 16
  obtain ⟨-, hfields, -⟩ := fields_read_back hprepare hplan huuid himage
  have hread (f : Field) (hf : f ∈ plan.fields) : numberAt image f.offset 4 = f.value :=
    (hfields f hf).1.mpr (hfits f hf)
  exact ⟨huuid, placed, plan, image, hprepare, hplan, himage, hmem, hread _ hmem, hread⟩

/-- **Cut numbers.** Thread-local data may be too long for 32 bits. Its length is read as zero. -/
theorem length_cut : ∃ placed plan image, prepare namedOptions [counterFile (2 ^ 32)] = .ok placed ∧
      Image.plan placed.table placed.layout namedOptions placed.relocations = .ok plan ∧
      Link.image namedOptions placed (Bytes.zeros 16) = .ok image ∧
      ⟨168, 2 ^ 32⟩ ∈ plan.fields ∧ numberAt image 168 4 = 0 := by
  obtain ⟨placed, hprepare, plan, hplan, hmem⟩ :
      ∃ placed, prepare namedOptions [counterFile (2 ^ 32)] = .ok placed ∧
        ∃ plan, Image.plan placed.table placed.layout namedOptions placed.relocations = .ok plan ∧
          ⟨168, 2 ^ 32⟩ ∈ plan.fields := by
    decide +kernel
  obtain ⟨image, himage⟩ := exists_image hprepare ⟨plan, hplan⟩
  obtain ⟨u, t, hlaid⟩ := laidOut_of_prepare hprepare
  exact ⟨placed, plan, image, hprepare, hplan, himage, hmem,
    numberAt_of_image hlaid hplan (Bytes.length_zeros 16) himage _ hmem⟩

end Link

end ArmLink
