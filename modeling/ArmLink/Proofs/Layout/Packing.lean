import ArmLink.Proofs.Layout.Compute

/-!
# Layouts are packings

The symbols of a computed layout are packed within their sections, the sections within their
segments, and the segments within the 32-bit addresses. Nothing is listed twice, and nothing is
left out.
-/

namespace ArmLink

open Elf ArmLink.Span SymbolTable List

variable {s : Section} {p : Place} {i : Nat} {e : Extent}

def SymbolTable.span (t : SymbolTable) (id : SymbolId) : Span :=
  .ofLength ((t.get id).value.getD 0) (t.get id).size

namespace Layout

/-- The sections that are mapped. -/
def loaded (l : Layout) : List Section := l.sections.filter (·.segment ∈ Segment.loads)

def symbols (l : Layout) : List SymbolId := l.sections.flatMap (·.symbols)

theorem getSection_of_getElem? {l : Layout} (h : l.sections[i]? = some s) : l.getSection i = s := by
  rw [getSection, getD_eq_getElem?_getD, h, Option.getD_some]

theorem isCandidate_iff {s : Symbol} :
    isCandidate s = true ↔ s.reachable = true ∧ s.special = false ∧ s.outer = none := by
  simp only [isCandidate, Bool.and_eq_true, Bool.not_eq_true', Option.isNone_iff_eq_none, and_assoc]

namespace Computed

variable {t t₁ t₀ : SymbolTable} {l : Layout} {fills : List Fill} {id : SymbolId}

/-! ## What is listed -/

section

variable (h : Computed t l t₁ t₀ fills)
include h

theorem special_eq (id : SymbolId) : (t₁.get id).special = (t₀.get id).special :=
  (h.finished.untouched.map Symbol.special).2 id

theorem isCandidate_eq (id : SymbolId) : isCandidate (t₁.get id) = isCandidate (t₀.get id) := by
  cases hspecial : (t₀.get id).special with
  | true => simp only [isCandidate, h.special_eq, hspecial, Bool.not_true, Bool.and_false,
      Bool.false_and]
  | false =>
    rw [h.finished.ordinary id hspecial]
    rfl

theorem candidates_eq (kind : SymbolKind) : candidates t₁ kind = candidates t₀ kind := by
  unfold candidates
  rw [h.finished.untouched.ids]
  refine filter_congr fun id _ => ?_
  rw [h.isCandidate_eq]
  cases hcand : isCandidate (t₀.get id) with
  | false => rfl
  | true =>
    rw [h.finished.ordinary id (isCandidate_iff.mp hcand).2.1]

theorem sectionsOf_eq : sectionsOf t₁ = sectionsOf t₀ := by
  have hname := (h.finished.untouched.read Symbol.name fun _ => rfl).2
  unfold sectionsOf
  congr 1
  funext ⟨kind, segment, grouping⟩
  cases grouping <;> simp only [sectionsOfKind, h.candidates_eq, hname]

theorem map_plain : l.sections.map Section.plain = sectionsOf t₁ := by
  rw [h.sectionsOf_eq, ← h.arranged.plain, h.sections, map_map]
  rfl

theorem symbols_eq : l.symbols = listed t₁ := by
  have hplain : (l.sections.map Section.plain).flatMap (·.symbols) = l.symbols :=
    flatMap_map ..
  rw [← hplain, h.map_plain, flatMap_symbols_sectionsOf]

/-! ## Places -/

theorem map_symbol : (fills.flatMap (·.2)).map (·.symbol) = listed t₁ := by
  rw [← h.symbols_eq, symbols, h.sections, map_flatMap, flatMap_map]
  refine flatMap_congr fun f hf => ?_
  obtain ⟨i, hi⟩ := getElem?_of_mem hf
  exact (h.arranged.filled i f hi).symbols

theorem get_place (hp : p ∈ fills.flatMap (·.2)) : t₁.get p.symbol =
      { t₀.get p.symbol with value := some p.address, sectionId := some p.sectionId } := by
  have hlisted : p.symbol ∈ listed t₁ := by
    rw [← h.map_symbol]
    exact mem_map_of_mem hp
  have hcand := (mem_listed.mp hlisted).1
  rw [h.isCandidate_eq] at hcand
  have hlt := lt_size_of_isCandidate hcand
  have hnodup : ((fills.flatMap (·.2)).map (·.symbol)).Nodup := by
    rw [h.map_symbol]
    exact nodup_listed t₁
  obtain ⟨-, hspecial, houter⟩ := isCandidate_iff.mp hcand
  rw [h.finished.steady _ hspecial houter, get_assign_of_mem hnodup hp hlt]

theorem span_place (hp : p ∈ fills.flatMap (·.2)) : t₁.span p.symbol = p.span t₀ := by
  rw [SymbolTable.span, h.get_place hp]
  rfl

theorem exists_fill (hs : l.sections[i]? = some s) :
    ∃ places, (s, places) ∈ fills ∧ s.Filled t₀ i s.origin places := by
  rw [h.sections, getElem?_map] at hs
  obtain ⟨f, hf, rfl⟩ := Option.map_eq_some_iff.mp hs
  exact ⟨f.2, mem_of_getElem? hf, h.arranged.filled i f hf⟩

theorem packed_symbols (hs : s ∈ l.sections) :
    Packed s.origin (s.origin + s.length) (s.symbols.map t₁.span) := by
  obtain ⟨i, hi⟩ := getElem?_of_mem hs
  obtain ⟨places, hmem, hfilled⟩ := h.exists_fill hi
  have hspans : s.symbols.map t₁.span = places.map (Place.span t₀) := by
    rw [← hfilled.symbols, map_map]
    exact map_congr_left fun p hp => h.span_place (mem_flatMap.mpr ⟨_, hmem, hp⟩)
  rw [hspans]
  exact hfilled.packed

theorem value_of_mem (hs : l.sections[i]? = some s) (hid : id ∈ s.symbols) :
    (t₁.get id).sectionId = some i ∧
      ∃ v, (t₁.get id).value = some v ∧ (symbolAlignment (t₁.get id)).value ∣ v := by
  obtain ⟨places, hmem, hfilled⟩ := h.exists_fill hs
  rw [← hfilled.symbols] at hid
  obtain ⟨p, hp, rfl⟩ := mem_map.mp hid
  have hget := h.get_place (mem_flatMap.mpr ⟨_, hmem, hp⟩)
  rw [hget]
  refine ⟨?_, p.address, rfl, hfilled.aligned p hp⟩
  rw [hfilled.sectionId p hp]

/-! ## Mapped sections -/

theorem sections_split : ∃ texts rodata datas tls, l.sections = texts ++ rodata ++ datas ++ tls ∧
      (∀ s ∈ texts, s.segment = .text) ∧ (∀ s ∈ rodata, s.segment = .rodata) ∧
      (∀ s ∈ datas, s.segment = .data) ∧ ∀ s ∈ tls, s.segment = .tls := by
  have hof {segment : Segment} {sections : List Section}
      (heq : sections.map Section.plain = sectionsFor t₁ segment) :
      ∀ s ∈ sections, s.segment = segment := by
    intro s hs
    have hmem : s.plain ∈ sectionsFor t₁ segment := heq ▸ mem_map_of_mem hs
    have hsegment : s.plain.segment = segment := segment_of_mem_sectionsFor hmem
    exact hsegment
  have hplain := h.map_plain
  rw [Layout.sectionsOf_eq] at hplain
  obtain ⟨loads, tls, hsections, hplain, htls⟩ := map_eq_append_iff.mp hplain
  obtain ⟨readable, datas, rfl, hplain, hdatas⟩ := map_eq_append_iff.mp hplain
  obtain ⟨texts, rodata, rfl, htexts, hrodata⟩ := map_eq_append_iff.mp hplain
  exact ⟨texts, rodata, datas, tls, hsections, hof htexts, hof hrodata, hof hdatas, hof htls⟩

theorem loaded_eq :
    l.loaded = l.extents.flatMap fun e => l.sections.filter (·.segment = e.segment) := by
  obtain ⟨texts, rodata, datas, tls, hsections, htexts, hrodata, hdatas, htls⟩ := h.sections_split
  have hloaded : l.loaded = texts ++ rodata ++ datas := by
    rw [loaded, hsections]
    simp only [filter_append, filter_segment (· ∈ Segment.loads) htexts,
      filter_segment (· ∈ Segment.loads) hrodata, filter_segment (· ∈ Segment.loads) hdatas,
      filter_segment (· ∈ Segment.loads) htls]
    exact append_nil _
  have hflat : (l.extents.flatMap fun e => l.sections.filter (·.segment = e.segment)) =
      Segment.loads.flatMap fun segment => l.sections.filter (·.segment = segment) := by
    rw [← h.arranged.segments, flatMap_map]
  rw [hflat, hloaded, hsections]
  simp only [Segment.loads, flatMap_cons, flatMap_nil, filter_append,
    filter_segment_eq htexts, filter_segment_eq hrodata, filter_segment_eq hdatas,
    filter_segment_eq htls, reduceIte, reduceCtorEq, append_nil, nil_append,
    append_assoc]

theorem packed_sections :
    Packed (l.textStart - headerSpace) 0x100000000 (l.loaded.map Section.span) := by
  rw [h.loaded_eq, map_flatMap]
  refine h.arranged.packed.flatMap fun e he => ?_
  rw [h.sections]
  have hholds := (h.arranged.holds e he).packed
  exact hholds.widen (Nat.le_max_left ..) (Nat.le_refl _)

end

theorem origin_of_mem_loaded (hs : s ∈ l.loaded) : s.origin = s.address := by
  refine if_neg fun htls => ?_
  have hload := (mem_filter.mp hs).2
  rw [htls] at hload
  revert hload
  decide

variable (h : Computed t l t₁ t₀ fills)
include h

theorem packed_loads {sections : List Section} (hsub : sections.Sublist l.loaded) :
    Packed (l.textStart - headerSpace) 0x100000000
      ((sections.flatMap (·.symbols)).map t₁.span) := by
  rw [map_flatMap]
  refine (h.packed_sections.sublist (hsub.map _)).flatMap fun s hs => ?_
  have hload := hsub.subset hs
  have hpacked := h.packed_symbols (mem_filter.mp hload).1
  rwa [origin_of_mem_loaded hload] at hpacked

theorem section_within (he : e ∈ l.extents) (hs : s ∈ l.sections)
    (hsegment : s.segment = e.segment) :
    max e.address l.textStart ≤ s.address ∧ s.address + s.length ≤ e.stop := by
  have hmem : s ∈ (fills.map (·.1)).filter (·.segment = e.segment) := by
    rw [← h.sections]
    exact mem_filter.mpr ⟨hs, decide_eq_true hsegment⟩
  have hwithin := (h.arranged.holds e he).packed.within (mem_map_of_mem hmem)
  exact ⟨hwithin.1, hwithin.2.2⟩

theorem stored_within (he : e ∈ l.extents) :
    e.fileLength ≤ e.length ∧ ∀ s ∈ l.sections, s.segment = e.segment →
      if s.type = SectionType.noBits then e.address + e.fileLength ≤ s.address
      else s.address + s.length ≤ e.address + e.fileLength := by
  have hholds := h.arranged.holds e he
  rw [← h.sections] at hholds
  have hfirst : StoredFirst l.sections := by
    refine StoredFirst.of_map_plain ?_
    rw [h.map_plain]
    exact storedFirst_sectionsOf t₁
  have hspec := storedLength_spec hholds.packed (Nat.le_max_left ..) (hfirst.filter _)
  rw [← hholds.fileLength] at hspec
  refine ⟨?_, fun s hs hsegment => ?_⟩
  · have hlength : e.stop - e.address = e.length := Nat.add_sub_cancel_left ..
    rw [← hlength]
    exact hspec.1
  · exact hspec.2 s (mem_filter.mpr ⟨hs, decide_eq_true hsegment⟩)

/-! ## Kinds -/

theorem isCandidate_input (id : SymbolId) : isCandidate (t₁.get id) = isCandidate (t.get id) := by
  rw [h.isCandidate_eq, h.promoted, promoted_eq]
  rfl

variable (hid : isCandidate (t.get id) = true)
include hid

/-- A candidate ends with the kind that its contents give it, and a place. -/
theorem get_of_isCandidate : ∃ kind, promotedKind (t.get id) = .ok kind ∧ t₁.get id =
      { t.get id with kind, value := (t₁.get id).value, sectionId := (t₁.get id).sectionId } := by
  obtain ⟨kind, hkind⟩ := h.promotable id hid
  have hpromoted : t₀.get id = { t.get id with kind } := by
    rw [h.promoted, promoted_of_ok hid hkind]
  have hspecial : (t₀.get id).special = false := by
    rw [hpromoted]
    exact (isCandidate_iff.mp hid).2.1
  refine ⟨kind, hkind, ?_⟩
  have hfinal := h.finished.ordinary id hspecial
  rwa [hpromoted] at hfinal

theorem kind_of_isCandidate : promotedKind (t.get id) = .ok (t₁.get id).kind := by
  obtain ⟨kind, hkind, hget⟩ := h.get_of_isCandidate hid
  rw [hkind, hget]

theorem length_data_le : (t₁.get id).data.length ≤ (t₁.get id).size := by
  obtain ⟨kind, hkind, hget⟩ := h.get_of_isCandidate hid
  have hle := length_le_of_promotedKind hkind
  rw [hget]
  exact hle

omit hid

theorem mem_symbols :
    id ∈ l.symbols ↔ isCandidate (t.get id) = true ∧ (t₁.get id).kind.isPlaced = true := by
  rw [h.symbols_eq, mem_listed, h.isCandidate_input]

theorem place_of_sectionId (houter : (t.get id).outer = none) (hnone : (t.get id).sectionId = none)
    (hsome : (t₁.get id).sectionId ≠ none) :
    (t₁.get id).value ≠ none ∧ (id ∈ l.symbols ∨ (t₁.get id).kind ∈ sentinelKinds) := by
  have hpromoted (id : SymbolId) := (h.promoted id).trans (promoted_eq (t.get id))
  have houter₀ : (t₀.get id).outer = none := by
    rw [hpromoted]
    exact houter
  rcases h.finished.sentinels id houter₀ with hassigned | ⟨hvalue, hkind⟩
  · by_cases hmem : id ∈ (fills.flatMap (·.2)).map (·.symbol)
    · obtain ⟨p, hp, rfl⟩ := mem_map.mp hmem
      refine ⟨?_, .inl (by rwa [h.symbols_eq, ← h.map_symbol])⟩
      rw [h.get_place hp]
      exact nofun
    · rw [hassigned, get_assign_of_not_mem hmem, hpromoted] at hsome
      exact absurd hnone hsome
  · exact ⟨hvalue, .inr hkind⟩

theorem no_contents (hs : s ∈ l.sections) (htype : s.type = SectionType.noBits)
    (hid : id ∈ s.symbols) : (t₁.get id).data = [] ∧ (t₁.get id).relocations = [] := by
  have hmem : s.plain ∈ sectionsOf t₁ := h.map_plain ▸ mem_map_of_mem hs
  obtain ⟨⟨kind, segment, grouping⟩, -, hkind⟩ := mem_flatMap.mp hmem
  obtain ⟨name, symbols, heq, hcandidates, -⟩ := mem_sectionsOfKind hkind
  have hunstored : isUnstored kind = true := by
    rw [← type_newSection name kind segment symbols, ← heq]
    exact htype
  have hsymbols : s.symbols = symbols := congrArg Section.symbols heq
  obtain ⟨hcand, rfl⟩ := mem_candidates.mp (hcandidates id (hsymbols ▸ hid))
  rw [h.isCandidate_input] at hcand
  have hempty := no_contents_of_promotedKind (h.kind_of_isCandidate hcand) hunstored
  have hkeeps := (h.keeps.map fun s => (s.data, s.relocations)).2 id
  exact ⟨(congrArg Prod.fst hkeeps).trans hempty.1, (congrArg Prod.snd hkeeps).trans hempty.2⟩

end Computed

/-! ## The packing -/

/-- The section is one that the entry of `sectionOrder` stands for. -/
structure Follows (t : SymbolTable) (e : SymbolKind × Segment × Grouping) (s : Section) :
    Prop where
  segment : s.segment = e.2.1
  kinds : ∀ id ∈ s.symbols, (t.get id).kind = e.1
  /-- it has the name of the entry, or holds one symbol and has its name -/
  named : e.2.2.Names t s.name s.symbols

/-- The layout `l` of the symbols of `t` gives each symbol that belongs in the output one place, and
no two of them a common one. `t₁` has the symbols with their addresses. -/
structure Packing (t : SymbolTable) (l : Layout) (t₁ : SymbolTable) : Prop where
  /-- what is reachable, is no sentinel, lies within no other symbol, and is of a kind that is laid
  out, and nothing else, is listed -/
  complete : ∀ id, id ∈ l.symbols ↔
    ((t.get id).reachable = true ∧ (t.get id).special = false ∧ (t.get id).outer = none) ∧
      ∃ kind, promotedKind (t.get id) = .ok kind ∧ kind.isPlaced = true
  once : l.symbols.Nodup
  kinds : ∀ id ∈ l.symbols, promotedKind (t.get id) = .ok (t₁.get id).kind
  /-- symbols are listed by kind, and within a kind in the order of the table -/
  order : l.symbols.Pairwise fun a b =>
    (t₁.get a).kind.rank < (t₁.get b).kind.rank ∨ (t₁.get a).kind = (t₁.get b).kind ∧ a < b
  inside : ∀ i s, l.sections[i]? = some s → ∀ id ∈ s.symbols,
    (t₁.get id).sectionId = some i ∧ ∃ v, (t₁.get id).value = some v ∧
      (symbolAlignment (t₁.get id)).value ∣ v ∧
      s.origin ≤ v ∧ v + (t₁.get id).size ≤ s.origin + s.length
  symbols_apart : (l.loaded.flatMap (·.symbols)).Pairwise fun a b =>
    (t₁.span a).stop ≤ (t₁.span b).start
  sections : ∃ entries, Forall₂ (Follows t₁) entries l.sections ∧
    (∀ e ∈ entries, e ∈ sectionOrder) ∧
    entries.Pairwise fun e e' => sectionOrder.idxOf e ≤ sectionOrder.idxOf e'
  sections_apart : l.loaded.Pairwise fun s s' => s.address + s.length ≤ s'.address
  within : ∀ s ∈ l.loaded, ∃ e ∈ l.extents, e.segment = s.segment ∧
    e.address ≤ s.address ∧ s.address + s.length ≤ e.stop
  segments : l.extents.map (·.segment) = Segment.loads
  segments_apart : l.extents.Pairwise fun e e' => e.stop ≤ e'.address
  /-- they start at page boundaries, end within 32-bit addresses, are stored in part or whole, and
  lie in the file as they lie in their pages -/
  extents : ∀ e ∈ l.extents, Alignment.page.value ∣ e.address ∧ e.stop ≤ 0x100000000 ∧
    e.fileLength ≤ e.length ∧
    e.fileOffset % Alignment.page.value = e.address % Alignment.page.value
  zeros : ∀ s ∈ l.sections, s.type = SectionType.noBits → ∀ id ∈ s.symbols,
    (t₁.get id).data = [] ∧ (t₁.get id).relocations = []

theorem follows_sectionsOf (t : SymbolTable) :
    ∃ entries, Forall₂ (Follows t) entries (sectionsOf t) ∧
      (∀ e ∈ entries, e ∈ sectionOrder) ∧
      entries.Pairwise fun e e' => sectionOrder.idxOf e ≤ sectionOrder.idxOf e' := by
  let made (e : SymbolKind × Segment × Grouping) := sectionsOfKind t e.1 e.2.1 e.2.2
  refine ⟨sectionOrder.flatMap fun e => (made e).map fun _ => e, ?_, ?_, ?_⟩
  · have hsame : Forall₂ Eq sectionOrder sectionOrder := forall₂_same.mpr fun _ _ => rfl
    refine rel_flatMap hsame ?_
    rintro ⟨kind, segment, grouping⟩ _ rfl
    refine forall₂_map_left_iff.mpr (forall₂_same.mpr fun s hs => ?_)
    obtain ⟨name, symbols, rfl, hsymbols, hnames⟩ := mem_sectionsOfKind hs
    exact ⟨rfl, fun id hid => (mem_candidates.mp (hsymbols id hid)).2, hnames⟩
  · intro e he
    obtain ⟨e', he', hmap⟩ := mem_flatMap.mp he
    obtain ⟨-, -, rfl⟩ := mem_map.mp hmap
    exact he'
  · refine pairwise_flatMap.mpr ⟨fun e _ => ?_, ?_⟩
    · refine pairwise_map.mpr (pairwise_of_forall fun _ _ => Nat.le_refl _)
    · have horder : sectionOrder.Pairwise fun e e' =>
          sectionOrder.idxOf e ≤ sectionOrder.idxOf e' := by decide
      refine horder.imp fun hle a ha b hb => ?_
      obtain ⟨-, -, rfl⟩ := mem_map.mp ha
      obtain ⟨-, -, rfl⟩ := mem_map.mp hb
      exact hle

/-- **Layouts are packings.** Whatever the symbols, their sizes and alignments are, a computed
layout gives each symbol that belongs in the output a place of its own. -/
theorem packing_of_compute {t t₁ : SymbolTable} {relocatable : Bool} {first : Nat} {l : Layout}
    (hs : t.HasSentinels) (h : compute t relocatable first = .ok (l, t₁)) : Packing t l t₁ := by
  obtain ⟨t₀, fills, hc⟩ := compute_ok hs h
  have hload {s : Section} (hs : s ∈ l.loaded) :
      ∃ e ∈ l.extents, e.segment = s.segment := by
    have hsegment := of_decide_eq_true (List.mem_filter.mp hs).2
    rw [← hc.arranged.segments] at hsegment
    exact List.mem_map.mp hsegment
  constructor
  case complete =>
    intro id
    rw [hc.mem_symbols, ← isCandidate_iff]
    constructor
    · exact fun ⟨hid, hkind⟩ => ⟨hid, _, hc.kind_of_isCandidate hid, hkind⟩
    · rintro ⟨hid, kind, hkind, hplaced⟩
      rw [hc.kind_of_isCandidate hid] at hkind
      cases hkind
      exact ⟨hid, hplaced⟩
  case once =>
    rw [hc.symbols_eq]
    exact nodup_listed t₁
  case kinds => exact fun id hid => hc.kind_of_isCandidate (hc.mem_symbols.mp hid).1
  case order =>
    rw [hc.symbols_eq]
    exact pairwise_listed t₁
  case inside =>
    intro i s hi id hid
    obtain ⟨hsection, v, hv, haligned⟩ := hc.value_of_mem hi hid
    have hwithin := (hc.packed_symbols (List.mem_of_getElem? hi)).within (List.mem_map_of_mem hid)
    simp only [SymbolTable.span, ofLength, hv, Option.getD_some] at hwithin
    exact ⟨hsection, v, hv, haligned, hwithin.1, hwithin.2.2⟩
  case symbols_apart => exact List.pairwise_map.mp (hc.packed_loads (.refl _)).pairwise
  case sections =>
    obtain ⟨entries, hfollows, hmem, hsorted⟩ := follows_sectionsOf t₁
    rw [← hc.map_plain, List.forall₂_map_right_iff] at hfollows
    refine ⟨entries, hfollows.imp ?_, hmem, hsorted⟩
    rintro e s ⟨hsegment, hkinds, hnamed⟩
    exact ⟨hsegment, hkinds, hnamed⟩
  case sections_apart => exact List.pairwise_map.mp hc.packed_sections.pairwise
  case within =>
    intro s hs
    obtain ⟨e, he, hsegment⟩ := hload hs
    have hwithin := hc.section_within he (List.mem_filter.mp hs).1 hsegment.symm
    exact ⟨e, he, hsegment, by omega, hwithin.2⟩
  case segments => exact hc.arranged.segments
  case segments_apart => exact List.pairwise_map.mp hc.arranged.packed.pairwise
  case extents =>
    intro e he
    have hholds := hc.arranged.holds e he
    have hbase := hc.base
    have hheaders := hc.headers
    have haddress := (hc.arranged.packed.within (List.mem_map_of_mem he)).1
    have hoffset : e.fileOffset = e.address - (l.textStart - headerSpace) := by
      rw [hholds.fileOffset]
      change l.textStart - headerSpace ≤ e.address at haddress
      omega
    refine ⟨hholds.page, hholds.stop_le, (hc.stored_within he).1, ?_⟩
    rw [hoffset, Nat.mod_eq_zero_of_dvd (Nat.dvd_sub hholds.page hbase),
      Nat.mod_eq_zero_of_dvd hholds.page]
  case zeros => exact fun s hs htype id hid => hc.no_contents hs htype hid

/-- Symbols with code of an odd size, contents where zeros were to be, zeros, a part of another
symbol, thread-local data, and one that nothing needs. -/
def packingSample : SymbolTable :=
  ⟨SymbolTable.initial.symbols ++ (
    [{ name := "main", version := 0, kind := .text, size := 8, data := [1, 2, 0, 0, 0, 0],
       relocations := [.pending 2 4 .absolute (some 20) 3], reachable := true },
     { name := "table", version := 0, kind := .bss, size := 5, data := [7], alignment := some ⟨4⟩,
       reachable := true },
     { name := "buffer", version := 0, kind := .bss, size := 3, reachable := true },
     { name := "entry", version := 0, kind := .data, size := 1, outer := some ⟨20, 2⟩,
       reachable := true },
     { name := "errno", version := 1, kind := .tlsBss, size := 4, reachable := true },
     { name := "helper", version := 1, kind := .text, size := 4, reachable := true },
     { name := "unused", version := 0, kind := .data, size := 8 }] : List Symbol)⟩

theorem packing_of_compute_sample :
    packingSample.HasSentinels ∧ ∃ l t₁, compute packingSample false 1 = .ok (l, t₁) ∧
      l.symbols = [19, 24, 20, 21, 23] ∧ Packing packingSample l t₁ := by
  have hs : packingSample.HasSentinels := by decide +kernel
  obtain ⟨l, t₁, hcompute, hsymbols⟩ : ∃ l t₁, compute packingSample false 1 = .ok (l, t₁) ∧
      l.symbols = [19, 24, 20, 21, 23] := by
    decide +kernel
  exact ⟨hs, l, t₁, hcompute, hsymbols, packing_of_compute hs hcompute⟩

end Layout

end ArmLink
