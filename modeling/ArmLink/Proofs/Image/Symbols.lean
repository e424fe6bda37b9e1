import ArmLink.Proofs.Image.Plan
import ArmLink.Proofs.Resolve

/-!
# Where symbols are stored

Addresses and file offsets run in parallel: the offset of a stored byte is its address less the
address where the file is mapped. So what is packed in memory is packed in the file.
-/

namespace ArmLink

open Elf ArmLink.Span SymbolTable List

variable {s : Section}

namespace Layout

def imageBase (l : Layout) : Nat := l.textStart - headerSpace

namespace Computed

variable {t t₁ t₀ : SymbolTable} {l : Layout} {fills : List Fill} {e : Extent}

/-! ## Offsets -/

theorem imageBase_le (h : Computed t l t₁ t₀ fills) (he : e ∈ l.extents) :
    l.imageBase ≤ e.address :=
  (h.arranged.packed.within (mem_map_of_mem he)).1

theorem fileOffset_eq (h : Computed t l t₁ t₀ fills) (he : e ∈ l.extents) :
    e.fileOffset = e.address - l.imageBase := by
  have hbase := h.imageBase_le he
  have hheaders := h.headers
  rw [(h.arranged.holds e he).fileOffset]
  unfold imageBase at hbase ⊢
  omega

theorem le_fileSize (he : e ∈ l.extents) : e.fileOffset + e.fileLength ≤ l.fileSize :=
  le_max?_getD_of_mem (mem_map_of_mem he)

variable (h : Computed t l t₁ t₀ fills)
include h

theorem fileOffset?_eq_some {address offset : Nat} (hoffset : l.fileOffset? address = some offset) :
    l.imageBase ≤ address ∧ offset = address - l.imageBase := by
  obtain ⟨e, hfind, rfl⟩ := Option.map_eq_some_iff.mp hoffset
  have he := mem_of_find?_eq_some hfind
  have hbounds := find?_some hfind
  simp only [Bool.and_eq_true, decide_eq_true_eq] at hbounds
  have hbase := h.imageBase_le he
  rw [h.fileOffset_eq he]
  omega

/-- The bytes of the stored part of a segment are stored. -/
theorem fileOffset?_of_mem (he : e ∈ l.extents) {address : Nat} (hstart : e.address ≤ address)
    (hstop : address < e.address + e.fileLength) :
    l.fileOffset? address = some (address - l.imageBase) := by
  have hsome : (l.fileOffset? address).isSome = true := by
    unfold fileOffset?
    rw [Option.isSome_map, find?_isSome]
    refine ⟨e, he, ?_⟩
    simp only [Bool.and_eq_true, decide_eq_true_eq]
    exact ⟨hstart, hstop⟩
  obtain ⟨offset, hoffset⟩ := Option.isSome_iff_exists.mp hsome
  rw [hoffset, (h.fileOffset?_eq_some hoffset).2]

/-! ## Sections -/

theorem exists_entry (hs : s ∈ l.sections) : ∃ entry ∈ sectionOrder, s.segment = entry.2.1 ∧
      (s.type = SectionType.noBits ↔ isUnstored entry.1 = true) := by
  have hmem : s.plain ∈ sectionsOf t₁ := h.map_plain ▸ mem_map_of_mem hs
  obtain ⟨⟨kind, segment, grouping⟩, hentry, hkind⟩ := mem_flatMap.mp hmem
  obtain ⟨name, symbols, heq, -⟩ := mem_sectionsOfKind hkind
  refine ⟨_, hentry, congrArg Section.segment heq, ?_⟩
  rw [← type_newSection name kind segment symbols, ← heq]
  rfl

/-- A section is mapped unless it is for thread-local storage. -/
theorem mem_loaded_of_ne_tls (hs : s ∈ l.sections) (hsegment : s.segment ≠ .tls) :
    s ∈ l.loaded := by
  obtain ⟨entry, hentry, heq, -⟩ := h.exists_entry hs
  have hentries : ∀ e ∈ sectionOrder, e.2.1 ≠ .tls → e.2.1 ∈ Segment.loads := by decide
  refine mem_filter.mpr ⟨hs, decide_eq_true ?_⟩
  rw [heq] at hsegment ⊢
  exact hentries _ hentry hsegment

theorem mem_loaded (hs : s ∈ l.sections) (htype : s.type ≠ SectionType.noBits) : s ∈ l.loaded := by
  obtain ⟨entry, hentry, heq, hstored⟩ := h.exists_entry hs
  have hentries : ∀ e ∈ sectionOrder, ¬ isUnstored e.1 = true → e.2.1 ≠ .tls := by decide
  refine h.mem_loaded_of_ne_tls hs ?_
  rw [heq]
  exact hentries _ hentry fun hunstored => htype (hstored.mpr hunstored)

/-- A mapped section lies in a segment: in its stored part if it is stored itself, and behind that
part otherwise. -/
theorem exists_extent (hs : s ∈ l.loaded) :
    ∃ e ∈ l.extents, max e.address l.textStart ≤ s.address ∧ s.address + s.length ≤ e.stop ∧
      if s.type = SectionType.noBits then e.address + e.fileLength ≤ s.address
      else s.address + s.length ≤ e.address + e.fileLength := by
  obtain ⟨hmem, hload⟩ := mem_filter.mp hs
  have hsegment := of_decide_eq_true hload
  rw [← h.arranged.segments] at hsegment
  obtain ⟨e, he, hsegment⟩ := mem_map.mp hsegment
  obtain ⟨hstart, hstop⟩ := h.section_within he hmem hsegment.symm
  exact ⟨e, he, hstart, hstop, (h.stored_within he).2 s hmem hsegment.symm⟩

theorem exists_code : ∃ s ∈ l.sections, s.segment = .text ∧ s.type ≠ SectionType.noBits := by
  have hcode : newSection SectionName.text .text .text (candidates t₁ .text) ∈ sectionsOf t₁ :=
    mem_append_left _ (mem_singleton_self _)
  rw [← h.map_plain] at hcode
  obtain ⟨s, hs, heq⟩ := mem_map.mp hcode
  refine ⟨s, hs, congrArg Section.segment heq, fun htype => ?_⟩
  have hplain : s.plain.type = SectionType.noBits := htype
  rw [heq, type_newSection] at hplain
  cases hplain

theorem headerSpace_le_fileSize : headerSpace ≤ l.fileSize := by
  obtain ⟨s, hs, -, htype⟩ := h.exists_code
  obtain ⟨e, he, hstart, -, hstored⟩ := h.exists_extent (h.mem_loaded hs htype)
  rw [if_neg htype] at hstored
  have hbase := h.imageBase_le he
  have hsize := le_fileSize he
  have hheaders := h.headers
  rw [h.fileOffset_eq he] at hsize
  unfold imageBase at hbase hsize
  omega

end Computed

end Layout

namespace Image

open Layout Resolve

variable {t t₀ t₁ t₂ : SymbolTable} {l : Layout} {fills : List Fill} {c : Context}
  {hosts : List HostRelocation} {id : SymbolId}

/-! ## Contents -/

theorem span_eq (hkeeps : Keeps bare t₁ t₂) (id : SymbolId) : t₂.span id = t₁.span id :=
  (hkeeps.map fun s : Symbol => Span.ofLength (s.value.getD 0) s.size).2 id

theorem contents_of_mem (hc : Computed t l t₁ t₀ fills) (hkeeps : Keeps bare t₁ t₂)
    (happlied : ∀ id, AppliedAt c t₁ t₂ hosts id) (hs : s ∈ l.sections) (hid : id ∈ s.symbols) :
    (∃ v, (t₂.get id).value = some v) ∧ (t₂.get id).data.length ≤ (t₂.get id).size ∧
      (s.type = SectionType.noBits → (t₂.get id).data = []) := by
  have hvalue := (hkeeps.read Symbol.value fun _ => rfl).2 id
  have hsize := (hkeeps.read Symbol.size fun _ => rfl).2 id
  obtain ⟨i, hi⟩ := getElem?_of_mem hs
  obtain ⟨-, v, hv, -⟩ := hc.value_of_mem hi hid
  have hmem : id ∈ l.symbols := mem_flatMap.mpr ⟨s, hs, hid⟩
  refine ⟨⟨v, hvalue.trans hv⟩, ?_, fun htype => ?_⟩
  · rw [hsize]
    exact (happlied id).length_data_le (hc.length_data_le (hc.mem_symbols.mp hmem).1)
  · obtain ⟨hdata, hrelocations⟩ := hc.no_contents hs htype hid
    rw [(happlied id).get_eq hrelocations, hdata]

/-- A symbol of a mapped section lies in the section. -/
theorem span_within (hc : Computed t l t₁ t₀ fills) (hs : s ∈ l.loaded) (hid : id ∈ s.symbols) :
    s.address ≤ (t₁.span id).start ∧ (t₁.span id).stop ≤ s.address + s.length := by
  have hpacked := hc.packed_symbols (mem_filter.mp hs).1
  rw [Computed.origin_of_mem_loaded hs] at hpacked
  have hwithin := hpacked.within (mem_map_of_mem hid)
  exact ⟨hwithin.1, hwithin.2.2⟩

theorem mem_storedSymbols :
    id ∈ storedSymbols l ↔ ∃ s ∈ l.sections, s.type ≠ SectionType.noBits ∧ id ∈ s.symbols := by
  unfold storedSymbols
  rw [mem_flatMap]
  constructor
  · rintro ⟨s, hs, hid⟩
    obtain ⟨hmem, htype⟩ := mem_filter.mp hs
    exact ⟨s, hmem, of_decide_eq_true htype, hid⟩
  · rintro ⟨s, hmem, htype, hid⟩
    exact ⟨s, mem_filter.mpr ⟨hmem, decide_eq_true htype⟩, hid⟩

theorem stored_of_mem (hc : Computed t l t₁ t₀ fills) (hid : id ∈ storedSymbols l) :
    headerSpace ≤ (t₁.span id).start - l.imageBase ∧
      (t₁.span id).stop - l.imageBase ≤ l.fileSize := by
  obtain ⟨s, hs, htype, hid⟩ := mem_storedSymbols.mp hid
  have hload := hc.mem_loaded hs htype
  obtain ⟨e, he, hstart, -, hstored⟩ := hc.exists_extent hload
  rw [if_neg htype] at hstored
  have hwithin := span_within hc hload hid
  have hsize := Computed.le_fileSize he
  have hbase := hc.imageBase_le he
  have hheaders := hc.headers
  rw [hc.fileOffset_eq he] at hsize
  unfold imageBase at hbase hsize ⊢
  omega

theorem fileOffset?_of_stored (hc : Computed t l t₁ t₀ fills) (hkeeps : Keeps bare t₁ t₂)
    (happlied : ∀ id, AppliedAt c t₁ t₂ hosts id) (hid : id ∈ storedSymbols l)
    (hpos : 0 < (t₂.get id).size) : ∃ v, (t₂.get id).value = some v ∧ l.imageBase ≤ v ∧
      l.fileOffset? v = some (v - l.imageBase) := by
  obtain ⟨s, hs, htype, hid⟩ := mem_storedSymbols.mp hid
  obtain ⟨⟨v, hv⟩, -, -⟩ := contents_of_mem hc hkeeps happlied hs hid
  have hload := hc.mem_loaded hs htype
  obtain ⟨e, he, hstart, -, hstored⟩ := hc.exists_extent hload
  rw [if_neg htype] at hstored
  have hwithin := span_within hc hload hid
  rw [← span_eq hkeeps, SymbolTable.span, hv] at hwithin
  change s.address ≤ v ∧ v + (t₂.get id).size ≤ s.address + s.length at hwithin
  have hbase := hc.imageBase_le he
  exact ⟨v, hv, by omega, hc.fileOffset?_of_mem he (by omega) (by omega)⟩

theorem span_of_symbolPart? (hc : Computed t l t₁ t₀ fills) (hkeeps : Keeps bare t₁ t₂)
    (hfits : (t₂.get id).data.length ≤ (t₂.get id).size) {part : Part}
    (h : symbolPart? t₂ l id = some part) : part.span = (t₁.span id).lower l.imageBase := by
  obtain ⟨offset, hoffset, rfl⟩ := Option.map_eq_some_iff.mp h
  obtain ⟨v, hv, hoffset⟩ := Option.bind_eq_some_iff.mp hoffset
  obtain ⟨hbase, heq⟩ := hc.fileOffset?_eq_some hoffset
  have hlength : ((t₂.get id).data ++
      Bytes.zeros ((t₂.get id).size - (t₂.get id).data.length)).length = (t₂.get id).size := by
    rw [length_append, Bytes.length_zeros]
    omega
  rw [← span_eq hkeeps]
  simp only [Part.span, SymbolTable.span, ofLength, Span.lower, hv, Option.getD_some, hlength,
    heq, Span.mk.injEq, true_and]
  omega

theorem filterMap_sublist_map {α β : Type} {f : α → Option β} {g : α → β} {as : List α}
    (h : ∀ a ∈ as, ∀ b, f a = some b → b = g a) : (as.filterMap f).Sublist (as.map g) := by
  induction as with
  | nil => exact .slnil
  | cons a as ih =>
    obtain ⟨ha, has⟩ := forall_mem_cons.mp h
    cases hfa : f a with
    | none =>
      rw [filterMap_cons_none hfa]
      exact .cons _ (ih has)
    | some b =>
      rw [filterMap_cons_some hfa, ha b hfa]
      exact .cons_cons _ (ih has)

/-- **Stored symbols.** They follow each other behind the headers. -/
theorem packed_symbolParts (hc : Computed t l t₁ t₀ fills) (hkeeps : Keeps bare t₁ t₂)
    (happlied : ∀ id, AppliedAt c t₁ t₂ hosts id) : Packed headerSpace l.fileSize
      (((storedSymbols l).filterMap (symbolPart? t₂ l)).map Part.span) := by
  have hsub : (l.sections.filter fun s => s.type ≠ SectionType.noBits).Sublist l.loaded := by
    have heq : (l.sections.filter fun s => s.type ≠ SectionType.noBits) =
        l.loaded.filter fun s => s.type ≠ SectionType.noBits := by
      rw [loaded, filter_filter]
      refine filter_congr fun s hs => ?_
      by_cases htype : s.type = SectionType.noBits
      · rw [decide_eq_false (not_not_intro htype), Bool.false_and]
      · rw [(mem_filter.mp (hc.mem_loaded hs htype)).2, Bool.and_true]
    rw [heq]
    exact filter_sublist
  have hlowered := (hc.packed_loads hsub).lower l.imageBase
  rw [map_map] at hlowered
  have hparts : (((storedSymbols l).filterMap (symbolPart? t₂ l)).map Part.span).Sublist
      ((storedSymbols l).map fun id => (t₁.span id).lower l.imageBase) := by
    rw [map_filterMap]
    refine filterMap_sublist_map fun id hid span hspan => ?_
    obtain ⟨part, hpart, rfl⟩ := Option.map_eq_some_iff.mp hspan
    obtain ⟨s, hs, -, hmem⟩ := mem_storedSymbols.mp hid
    exact span_of_symbolPart? hc hkeeps (contents_of_mem hc hkeeps happlied hs hmem).2.1 hpart
  refine (hlowered.sublist hparts).tighten (fun span hspan => ?_) hc.headerSpace_le_fileSize
  obtain ⟨id, hid, rfl⟩ := mem_map.mp (hparts.subset hspan)
  exact stored_of_mem hc hid

end Image

end ArmLink
