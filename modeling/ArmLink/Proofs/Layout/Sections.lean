import ArmLink.Proofs.Layout.Placement
import ArmLink.Proofs.SymbolTable

/-!
# The sections of a layout

Sections come in the order of the kinds of their symbols. That order groups them by segment, and
within a segment it puts those that are not stored in the file behind the others.
-/

namespace ArmLink.Layout

open Elf ArmLink.Span List

variable {t : SymbolTable} {segment : Segment} {s : Section} {id : SymbolId} {grouping : Grouping}
  {sections : List Section} {kind : SymbolKind}

/-! ## Kinds and segments -/

/-- The sections of a segment, in order. -/
def sectionsFor (t : SymbolTable) (segment : Segment) : List Section :=
  (sectionOrder.filter (·.2.1 = segment)).flatMap fun (kind, segment, grouping) =>
    sectionsOfKind t kind segment grouping

/-- The section has the name that its symbols share, or holds one symbol and has its name. -/
def Grouping.Names (t : SymbolTable) (name : String) (symbols : List SymbolId) : Grouping → Prop
  | .together shared => name = shared
  | .apart => ∃ id, symbols = [id] ∧ name = (t.get id).name

theorem mem_sectionsOfKind (h : s ∈ sectionsOfKind t kind segment grouping) :
    ∃ name symbols, s = newSection name kind segment symbols ∧
      (∀ id ∈ symbols, id ∈ candidates t kind) ∧ grouping.Names t name symbols := by
  cases grouping with
  | together name =>
    unfold sectionsOfKind at h
    dsimp only at h
    split at h
    · cases h
    · exact ⟨name, candidates t kind, mem_singleton.mp h, fun _ hid => hid, rfl⟩
  | apart =>
    obtain ⟨id, hid, rfl⟩ := mem_map.mp h
    refine ⟨_, [id], rfl, fun j hj => ?_, id, rfl, rfl⟩
    rw [mem_singleton.mp hj]
    exact hid

theorem segment_of_mem_sectionsFor (h : s ∈ sectionsFor t segment) : s.segment = segment := by
  obtain ⟨⟨kind, segment', grouping⟩, hentry, hs⟩ := mem_flatMap.mp h
  obtain ⟨name, symbols, rfl, -⟩ := mem_sectionsOfKind hs
  have hsegment := (mem_filter.mp hentry).2
  exact of_decide_eq_true hsegment

theorem sectionsOf_eq (t : SymbolTable) :
    sectionsOf t = sectionsFor t .text ++ sectionsFor t .rodata ++ sectionsFor t .data
      ++ sectionsFor t .tls := by
  simp only [sectionsFor, ← flatMap_append]
  rfl

theorem filter_segment (p : Segment → Prop) [DecidablePred p] {α : Type} {segmentOf : α → Segment}
    {xs : List α} (h : ∀ x ∈ xs, segmentOf x = segment) :
    xs.filter (fun x => p (segmentOf x)) = if p segment then xs else [] := by
  rw [filter_congr fun x hx => congrArg (fun s => decide (p s)) (h x hx)]
  split <;> simp [*]

theorem filter_segment_eq {other : Segment} {α : Type} {segmentOf : α → Segment} {xs : List α}
    (h : ∀ x ∈ xs, segmentOf x = segment) :
    xs.filter (segmentOf · = other) = if segment = other then xs else [] :=
  filter_segment (· = other) h

/-- The numbered sections of a segment follow those of the segments before it. -/
theorem sectionsIn_eq (t : SymbolTable) : let n₁ := (sectionsFor t .text).length
    let n₂ := n₁ + (sectionsFor t .rodata).length
    let n₃ := n₂ + (sectionsFor t .data).length
    sectionsIn (sectionsOf t) .text = (sectionsFor t .text).zipIdx ∧
    sectionsIn (sectionsOf t) .rodata = (sectionsFor t .rodata).zipIdx n₁ ∧
    sectionsIn (sectionsOf t) .data = (sectionsFor t .data).zipIdx n₂ ∧
    sectionsIn (sectionsOf t) .tls = (sectionsFor t .tls).zipIdx n₃ := by
  have hfor (segment : Segment) (n : Nat) :
      ∀ i ∈ (sectionsFor t segment).zipIdx n, i.1.segment = segment :=
    fun i hi => segment_of_mem_sectionsFor (fst_mem_of_mem_zipIdx hi)
  simp only [sectionsIn, sectionsOf_eq t, zipIdx_append, filter_append,
    filter_segment_eq (hfor _ _), reduceIte, reduceCtorEq, append_nil, nil_append,
    length_append, Nat.zero_add, and_self]

/-- The numbered sections of the four segments make up all numbered sections. -/
theorem sectionsIn_append :
    (sectionsOf t).zipIdx = sectionsIn (sectionsOf t) .text ++ sectionsIn (sectionsOf t) .rodata
      ++ sectionsIn (sectionsOf t) .data ++ sectionsIn (sectionsOf t) .tls := by
  obtain ⟨h₁, h₂, h₃, h₄⟩ := sectionsIn_eq t
  rw [h₁, h₂, h₃, h₄, sectionsOf_eq t]
  simp only [zipIdx_append, length_append, Nat.zero_add]

theorem length_sectionsIn_tls (t : SymbolTable) : (sectionsIn (sectionsOf t) .tls).length ≤ 1 := by
  rw [(sectionsIn_eq t).2.2.2, length_zipIdx]
  show (sectionsOfKind t .tlsBss .tls (.together SectionName.tbss) ++ []).length ≤ 1
  unfold sectionsOfKind
  dsimp only
  split
  · exact Nat.zero_le _
  · exact Nat.le_refl _

theorem plain_of_mem_sectionsOf (h : s ∈ sectionsOf t) : s.plain = s := by
  obtain ⟨⟨kind, segment, grouping⟩, -, hs⟩ := mem_flatMap.mp h
  obtain ⟨name, symbols, rfl, -⟩ := mem_sectionsOfKind hs
  rfl

theorem map_plain_zipIdx_sectionsOf : (sectionsOf t).zipIdx.map (·.1.plain) = sectionsOf t := by
  have hfst : (sectionsOf t).zipIdx.map (·.1.plain) = (sectionsOf t).map Section.plain := by
    conv_rhs => rw [← zipIdx_map_fst 0 (sectionsOf t), map_map]
    rfl
  rw [hfst]
  exact (map_congr_left fun s hs => plain_of_mem_sectionsOf hs).trans (map_id _)

/-! ## What is stored in the file -/

/-- The kinds of symbols whose sections are not stored. -/
def isUnstored : SymbolKind → Bool
  | .bss | .noPtrBss | .tlsBss => true
  | _ => false

theorem type_newSection (name : String) (kind : SymbolKind) (segment : Segment)
    (symbols : List SymbolId) :
    (newSection name kind segment symbols).type = SectionType.noBits ↔ isUnstored kind = true := by
  have hread : (readOnlyTable name).1 ≠ SectionType.noBits := by
    unfold readOnlyTable
    repeat' split
    all_goals decide
  have hwrite : (writableTable name).1 ≠ SectionType.noBits := by
    unfold writableTable
    repeat' split
    all_goals decide
  cases kind with
  | readOnlyTable => exact ⟨fun h => absurd h hread, fun h => nomatch h⟩
  | writableTable => exact ⟨fun h => absurd h hwrite, fun h => nomatch h⟩
  | _ => simp [newSection, attributes, isUnstored, SectionType.noBits, SectionType.progBits]

/-- No section that is stored stands behind one that is not. -/
def StoredFirst (sections : List Section) : Prop :=
  sections.Pairwise fun s s' => s.type = SectionType.noBits → s'.type = SectionType.noBits

theorem storedFirst_sectionsOf (t : SymbolTable) : StoredFirst (sectionsOf t) := by
  refine pairwise_flatMap.mpr ⟨?_, ?_⟩
  · -- within a kind all sections are alike
    rintro ⟨kind, segment, grouping⟩ -
    refine pairwise_of_forall_mem_list fun s hs s' hs' => ?_
    obtain ⟨name, symbols, rfl, -⟩ := mem_sectionsOfKind hs
    obtain ⟨name', symbols', rfl, -⟩ := mem_sectionsOfKind hs'
    rw [type_newSection, type_newSection]
    exact id
  · have hkinds : sectionOrder.Pairwise fun e e' =>
        isUnstored e.1 = true → isUnstored e'.1 = true := by
      decide
    refine hkinds.imp ?_
    rintro ⟨kind, segment, grouping⟩ ⟨kind', segment', grouping'⟩ h s hs s' hs'
    obtain ⟨name, symbols, rfl, -⟩ := mem_sectionsOfKind hs
    obtain ⟨name', symbols', rfl, -⟩ := mem_sectionsOfKind hs'
    rw [type_newSection, type_newSection]
    exact h

theorem StoredFirst.of_map_plain (h : StoredFirst (sections.map Section.plain)) :
    StoredFirst sections :=
  pairwise_map.mp h

/-- The stored part of a segment ends behind its stored sections and before the others. -/
theorem storedLength_spec {address start stop : Nat}
    (hpack : Packed start stop (sections.map Section.span)) (hstart : address ≤ start)
    (hstored : StoredFirst sections) :
    storedLength sections address (stop - address) ≤ stop - address ∧
      ∀ s ∈ sections,
        if s.type = SectionType.noBits then
          address + storedLength sections address (stop - address) ≤ s.address
        else s.span.stop ≤ address + storedLength sections address (stop - address) := by
  unfold storedLength
  split
  · rename_i z hz
    obtain ⟨hztype, before, behind, rfl, hbefore⟩ := find?_eq_some_iff_append.mp hz
    rw [map_append, map_cons] at hpack
    have hzspan := hpack.within (mem_append_right _ mem_cons_self)
    change start ≤ z.address ∧ z.address ≤ z.address + z.length ∧
      z.address + z.length ≤ stop at hzspan
    have hpairs := hpack.pairwise
    obtain ⟨-, hbehind, hacross⟩ := pairwise_append.mp hpairs
    refine ⟨by omega, fun s hs => ?_⟩
    rcases mem_append.mp hs with hs | hs
    · -- a section before the first that is not stored
      have hstype := hbefore s hs
      rw [if_neg (by simpa using hstype)]
      have := hacross _ (mem_map_of_mem hs) _ mem_cons_self
      change s.span.stop ≤ z.address at this
      omega
    · have hnobits : s.type = SectionType.noBits := by
        rcases mem_cons.mp hs with rfl | hs
        · exact of_decide_eq_true hztype
        · have hfirst := (pairwise_cons.mp (pairwise_append.mp hstored).2.1).1
          exact hfirst s hs (of_decide_eq_true hztype)
      rw [if_pos hnobits]
      rcases mem_cons.mp hs with rfl | hs
      · omega
      · have := (pairwise_cons.mp hbehind).1 _ (mem_map_of_mem hs)
        change z.address + z.length ≤ s.address at this
        omega
  · rename_i hnone
    refine ⟨Nat.le_refl _, fun s hs => ?_⟩
    have hstype := find?_eq_none.mp hnone s hs
    rw [if_neg (by simpa using hstype)]
    have hspan := hpack.within (mem_map_of_mem hs)
    omega

/-! ## What is listed -/

theorem lt_size_of_isCandidate (h : isCandidate (t.get id) = true) : id < t.size :=
  SymbolTable.lt_size_of_get (P := (isCandidate · = true)) h nofun

theorem mem_candidates :
    id ∈ candidates t kind ↔ isCandidate (t.get id) = true ∧ (t.get id).kind = kind := by
  unfold candidates
  rw [mem_filter, Bool.and_eq_true, decide_eq_true_eq, SymbolTable.mem_ids]
  exact ⟨fun h => h.2, fun h => ⟨lt_size_of_isCandidate h.1, h⟩⟩

/-- The symbols that sections list, in order. -/
def listed (t : SymbolTable) : List SymbolId := sectionOrder.flatMap fun e => candidates t e.1

theorem flatMap_symbols_sectionsOfKind :
    (sectionsOfKind t kind segment grouping).flatMap (·.symbols) = candidates t kind := by
  cases grouping with
  | together name =>
    unfold sectionsOfKind
    dsimp only
    split
    · rename_i h
      exact (isEmpty_iff.mp h.2).symm
    · exact append_nil _
  | apart =>
    unfold sectionsOfKind
    rw [flatMap_map]
    exact flatMap_singleton' _

theorem flatMap_symbols_sectionsOf : (sectionsOf t).flatMap (·.symbols) = listed t := by
  unfold sectionsOf listed
  rw [flatMap_assoc]
  simp only [flatMap_symbols_sectionsOfKind]

theorem isPlaced_iff_mem_sectionOrder : kind.isPlaced = true ↔ kind ∈ sectionOrder.map (·.1) := by
  cases kind <;> decide

theorem mem_listed :
    id ∈ listed t ↔ isCandidate (t.get id) = true ∧ (t.get id).kind.isPlaced = true := by
  unfold listed
  rw [mem_flatMap, isPlaced_iff_mem_sectionOrder, mem_map]
  constructor
  · rintro ⟨e, he, hid⟩
    obtain ⟨hcand, hkind⟩ := mem_candidates.mp hid
    exact ⟨hcand, e, he, hkind.symm⟩
  · rintro ⟨hcand, e, he, hkind⟩
    exact ⟨e, he, mem_candidates.mpr ⟨hcand, hkind.symm⟩⟩

theorem pairwise_listed (t : SymbolTable) : (listed t).Pairwise fun a b =>
      (t.get a).kind.rank < (t.get b).kind.rank ∨ (t.get a).kind = (t.get b).kind ∧ a < b := by
  refine pairwise_flatMap.mpr ⟨fun e _ => ?_, ?_⟩
  · have hsorted : (candidates t e.1).Pairwise (· < ·) :=
      Pairwise.filter _ pairwise_lt_range
    refine hsorted.imp_of_mem fun ha hb hlt => ?_
    have hkind := (mem_candidates.mp ha).2.trans (mem_candidates.mp hb).2.symm
    exact .inr ⟨hkind, hlt⟩
  · have hranks : sectionOrder.Pairwise fun e e' => e.1.rank < e'.1.rank := by decide
    refine hranks.imp fun hlt a ha b hb => .inl ?_
    rwa [(mem_candidates.mp ha).2, (mem_candidates.mp hb).2]

theorem nodup_listed (t : SymbolTable) : (listed t).Nodup := by
  refine (pairwise_listed t).imp ?_
  rintro a b (hlt | ⟨-, hlt⟩) rfl
  · exact Nat.lt_irrefl _ hlt
  · exact Nat.lt_irrefl _ hlt

end ArmLink.Layout
