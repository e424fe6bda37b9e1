import ArmLink.Proofs.Layout.Sections

/-!
# Placement of segments

The mapped segments follow each other at page boundaries, the first one also maps the headers, and
each holds the sections that belong to it.
-/

namespace ArmLink

open Elf Layout ArmLink.Span List

variable {segment : Segment} {cursor dataEnd : Nat} {sections placed : List Section}
  {places : List Place} {fills : List Fill} {f : Fill} {e : Extent} {extents : List Extent}

def Extent.span (e : Extent) : Span := .ofLength e.address e.length

/-- Where the places of a section's symbols are counted from: thread-local data is counted from the
start of its block. -/
def Section.origin (s : Section) : Nat := if s.segment = .tls then 0 else s.address

/-- The segment holds these sections, behind the headers if it maps them. -/
structure Extent.Holds (textStart : Nat) (e : Extent) (sections : List Section) : Prop where
  packed : Packed (max e.address textStart) e.stop (sections.map Section.span)
  page : Alignment.page.value ∣ e.address
  /-- addresses and file offsets run in parallel, from the headers on -/
  fileOffset : e.fileOffset = e.address + headerSpace - textStart
  fileLength : e.fileLength = storedLength sections e.address (e.stop - e.address)
  length_lt : e.length < 0x100000000
  stop_le : e.stop ≤ 0x100000000
  last : (max e.address textStart :: (sections.map Section.span).map (·.stop)).getLast? =
    some e.stop

namespace Layout

variable {t : SymbolTable} {textStart : Nat}

theorem checkExtent_ok {u : Unit} (h : checkExtent e = .ok u) :
    e.length < 0x100000000 ∧ e.stop ≤ 0x100000000 := by
  unfold checkExtent at h
  split at h
  · cases h
  · split at h
    · cases h
    · omega

variable (hpage : Alignment.page.value ∣ textStart - headerSpace)
include hpage

theorem segmentStart?_eq_some {address start : Nat} (hcursor : textStart ≤ cursor)
    (h : segmentStart? textStart segment cursor = some (address, start)) :
    start = max address textStart ∧ Alignment.page.value ∣ address ∧
      (if segment = .text then address = textStart - headerSpace else cursor ≤ address) := by
  unfold segmentStart? at h
  split at h
  · rename_i hseg
    obtain ⟨rfl, rfl⟩ := Prod.mk.inj (Option.some.inj h)
    rw [if_pos hseg]
    exact ⟨by omega, hpage, rfl⟩
  · rename_i hseg
    obtain ⟨up, hup, hpair⟩ := Option.map_eq_some_iff.mp h
    cases hpair
    obtain ⟨rfl, -⟩ := Alignment.alignUp?_eq_some hup
    have hle := Alignment.page.le_alignUp cursor
    rw [if_neg hseg]
    exact ⟨by omega, Alignment.page.dvd_alignUp cursor, hle⟩

theorem placeSegment_ok {stop : Nat} (hcursor : textStart ≤ cursor)
    (h : placeSegment t textStart sections segment cursor = .ok (e, placed, places, stop)) :
    ∃ fills, placed = fills.map (·.1) ∧ places = fills.flatMap (·.2) ∧
      Forall₂ (Fills t) (sectionsIn sections segment) fills ∧
      e.Holds textStart placed ∧ e.segment = segment ∧ e.stop = stop ∧
      (if segment = .text then e.address = textStart - headerSpace else cursor ≤ e.address) := by
  unfold placeSegment at h
  split at h
  · cases h
  · rename_i address start hstart
    obtain ⟨⟨placed', places', stop'⟩, hsections, h⟩ := bind_eq_ok.mp h
    dsimp only at h
    split at h
    · rename_i u hcheck
      cases pure_eq_ok.mp h
      obtain ⟨hlength, hstop⟩ := checkExtent_ok hcheck
      obtain ⟨fills, rfl, rfl, hfills, hpack, -, hlast⟩ := placeSections_ok hsections
      obtain ⟨rfl, hdvd, haddress⟩ := segmentStart?_eq_some hpage hcursor hstart
      have hle := hpack.le
      have hend : address + (stop - address) = stop := by omega
      refine ⟨fills, rfl, rfl, hfills, ⟨?_, hdvd, rfl, ?_, hlength, hstop, ?_⟩, rfl, hend, haddress⟩
      · show Packed (max address textStart) (address + (stop - address)) _
        rw [hend]
        exact hpack
      · show storedLength _ address (stop - address) =
          storedLength _ address (address + (stop - address) - address)
        rw [hend]
      · show _ = some (address + (stop - address))
        rwa [hend]
    · cases h

/-! ## All segments -/

abbrev Group := Extent × List Fill

structure GroupOf (t : SymbolTable) (textStart : Nat) (sections : List Section) (segment : Segment)
    (g : Group) : Prop where
  segment_eq : g.1.segment = segment
  fills : Forall₂ (Fills t) (sectionsIn sections segment) g.2
  holds : g.1.Holds textStart (g.2.map (·.1))

theorem placeSegments_ok {segments : List Segment} {stop : Nat} (hcursor : textStart ≤ cursor)
    (hspace : cursor ≤ 0x100000000) (hne : .text ∉ segments)
    (h : placeSegments t textStart sections segments cursor = .ok (extents, placed, places, stop)) :
    ∃ groups : List Group, extents = groups.map (·.1) ∧
      placed = (groups.flatMap (·.2)).map (·.1) ∧ places = (groups.flatMap (·.2)).flatMap (·.2) ∧
      Forall₂ (GroupOf t textStart sections) segments groups ∧
      Packed cursor 0x100000000 (extents.map Extent.span) := by
  induction segments generalizing cursor extents placed places with
  | nil =>
    cases h
    exact ⟨[], rfl, rfl, rfl, .nil, .nil hspace⟩
  | cons segment segments ih =>
    obtain ⟨⟨e, placed₁, places₁, stop₁⟩, hhead, h⟩ := bind_eq_ok.mp h
    obtain ⟨⟨extents₂, placed₂, places₂, stop₂⟩, htail, ⟨⟩⟩ := bind_pure_eq_ok.mp h
    obtain ⟨fills, rfl, rfl, hfills, hholds, hsegment, rfl, haddress⟩ :=
      placeSegment_ok hpage hcursor hhead
    have hother : segment ≠ .text := fun heq => hne (heq ▸ mem_cons_self)
    rw [if_neg hother] at haddress
    have hle : e.address ≤ e.stop := Nat.le_add_right ..
    obtain ⟨groups, rfl, rfl, rfl, hgroups, hpack⟩ :=
      ih (Nat.le_trans hcursor (Nat.le_trans haddress hle)) hholds.stop_le
        (fun hmem => hne (mem_cons_of_mem _ hmem)) (Placing.after_eq_ok.mp htail)
    refine ⟨(e, fills) :: groups, rfl, ?_, ?_, .cons ⟨hsegment, hfills, hholds⟩ hgroups, ?_⟩
    · rw [flatMap_cons, map_append]
    · rw [flatMap_cons, flatMap_append]
    · exact .cons haddress hle hpack

omit hpage

theorem Fills.segment_of_mem (h : Forall₂ (Fills t) (sectionsIn sections segment) fills) :
    ∀ f ∈ fills, f.1.segment = segment := by
  intro f hf
  have hplain : f.1.plain ∈ (sectionsIn sections segment).map (·.1.plain) := by
    rw [← Fills.plain_eq h]
    exact mem_map_of_mem hf
  obtain ⟨i, hi, heq⟩ := mem_map.mp hplain
  have hsegment : i.1.plain.segment = f.1.plain.segment := congrArg Section.segment heq
  exact hsegment.symm.trans (of_decide_eq_true (mem_filter.mp hi).2)

/-- The sections of a table, with the places of their symbols, within the mapped segments. -/
structure Arranged (t : SymbolTable) (textStart : Nat) (extents : List Extent)
    (fills : List Fill) : Prop where
  plain : fills.map (fun f => f.1.plain) = sectionsOf t
  filled : ∀ (i : Nat) (f : Fill), fills[i]? = some f → f.1.Filled t i f.1.origin f.2
  segments : extents.map (·.segment) = Segment.loads
  packed : Packed (textStart - headerSpace) 0x100000000 (extents.map Extent.span)
  holds : ∀ e ∈ extents, e.Holds textStart ((fills.map (·.1)).filter (·.segment = e.segment))
  first : ∀ e ∈ extents, e.segment = .text → e.address = textStart - headerSpace

/-- A section once the thread-local ones have been moved behind the data. -/
def settle (dataEnd : Nat) (f : Fill) : Fill :=
  if f.1.segment = .tls then (moveTls dataEnd f.1, f.2) else f

theorem settle_of_ne (h : f.1.segment ≠ .tls) : settle dataEnd f = f :=
  if_neg h

theorem settle_of_eq (h : f.1.segment = .tls) : settle dataEnd f = (moveTls dataEnd f.1, f.2) :=
  if_pos h

@[simp] theorem settle_plain : (settle dataEnd f).1.plain = f.1.plain := by
  unfold settle
  split <;> rfl

/-- Moving a section keeps its symbols where they are, counted from its origin. -/
theorem Fills.settle {s : Section × SectionId} (h : Fills t s f)
    (hzero : f.1.segment = .tls → f.1.address = 0) :
    (settle dataEnd f).1.Filled t s.2 (settle dataEnd f).1.origin (settle dataEnd f).2 := by
  obtain ⟨-, hsymbols, hsection, hpacked, haligned⟩ := h
  by_cases hseg : f.1.segment = .tls
  · have horigin : (moveTls dataEnd f.1).origin = 0 := if_pos hseg
    rw [hzero hseg] at hpacked
    rw [settle_of_eq hseg]
    refine ⟨hsymbols, hsection, ?_, haligned⟩
    rw [horigin]
    exact hpacked
  · have horigin : f.1.origin = f.1.address := if_neg hseg
    rw [settle_of_ne hseg, horigin]
    exact ⟨hsymbols, hsection, hpacked, haligned⟩

theorem map_settle (dataEnd : Nat) (h : ∀ f ∈ fills, f.1.segment = segment) (hne : segment ≠ .tls) :
    fills.map (settle dataEnd) = fills :=
  (map_congr_left fun f hf => settle_of_ne (h f hf ▸ hne)).trans (map_id _)

/-- Three groups and the thread-local sections make up an arrangement. -/
theorem arranged_of_groups {g₁ g₂ g₃ : Group} {fills₄ : List Fill} (dataEnd : Nat)
    (h₁ : GroupOf t textStart (sectionsOf t) .text g₁)
    (h₂ : GroupOf t textStart (sectionsOf t) .rodata g₂)
    (h₃ : GroupOf t textStart (sectionsOf t) .data g₃)
    (h₄ : Forall₂ (Fills t) (sectionsIn (sectionsOf t) .tls) fills₄)
    (hzero : ∀ f ∈ fills₄, f.1.address = 0)
    (hpack : Packed (textStart - headerSpace) 0x100000000 [g₁.1.span, g₂.1.span, g₃.1.span])
    (hfirst : g₁.1.address = textStart - headerSpace) : Arranged t textStart [g₁.1, g₂.1, g₃.1]
      (g₁.2 ++ g₂.2 ++ g₃.2 ++ fills₄.map (settle dataEnd)) := by
  have hseg₁ := Fills.segment_of_mem h₁.fills
  have hseg₂ := Fills.segment_of_mem h₂.fills
  have hseg₃ := Fills.segment_of_mem h₃.fills
  have hseg₄ := Fills.segment_of_mem h₄
  have hseg₄' : ∀ f ∈ fills₄.map (settle dataEnd), f.1.segment = .tls :=
    forall_mem_map.mpr fun f hf => (congrArg Section.segment settle_plain).trans (hseg₄ f hf)
  -- before the thread-local sections are moved, the numbered sections are all there
  have hall : Forall₂ (Fills t) (sectionsOf t).zipIdx (g₁.2 ++ g₂.2 ++ g₃.2 ++ fills₄) := by
    rw [sectionsIn_append]
    exact rel_append (rel_append (rel_append h₁.fills h₂.fills) h₃.fills) h₄
  have hsettled : (g₁.2 ++ g₂.2 ++ g₃.2 ++ fills₄).map (settle dataEnd) =
      g₁.2 ++ g₂.2 ++ g₃.2 ++ fills₄.map (settle dataEnd) := by
    simp only [map_append, map_settle dataEnd hseg₁ (by decide),
      map_settle dataEnd hseg₂ (by decide), map_settle dataEnd hseg₃ (by decide)]
  have htls : ∀ f ∈ g₁.2 ++ g₂.2 ++ g₃.2 ++ fills₄, f.1.segment = .tls → f.1.address = 0 := by
    intro f hf hseg
    simp only [mem_append] at hf
    rcases hf with ((hf | hf) | hf) | hf
    · cases (hseg₁ f hf).symm.trans hseg
    · cases (hseg₂ f hf).symm.trans hseg
    · cases (hseg₃ f hf).symm.trans hseg
    · exact hzero f hf
  rw [← hsettled]
  refine ⟨?_, ?_, ?_, hpack, ?_, ?_⟩
  · rw [map_map]
    show (g₁.2 ++ g₂.2 ++ g₃.2 ++ fills₄).map (fun f => (settle dataEnd f).1.plain) = _
    simp only [settle_plain]
    rw [Fills.plain_eq hall, map_plain_zipIdx_sectionsOf]
  · intro i f hf
    rw [getElem?_map] at hf
    obtain ⟨f', hf', rfl⟩ := Option.map_eq_some_iff.mp hf
    obtain ⟨s, hs, hfill⟩ := Fills.getElem? hall hf'
    have hindex : s.2 = i := by
      rw [getElem?_zipIdx] at hs
      obtain ⟨s', -, rfl⟩ := Option.map_eq_some_iff.mp hs
      exact Nat.zero_add i
    rw [← hindex]
    exact hfill.settle (htls f' (mem_of_getElem? hf'))
  · show [g₁.1.segment, g₂.1.segment, g₃.1.segment] = _
    rw [h₁.segment_eq, h₂.segment_eq, h₃.segment_eq]
    rfl
  · intro e he
    simp only [hsettled, map_append, filter_append,
      filter_segment_eq (forall_mem_map.mpr hseg₁),
      filter_segment_eq (forall_mem_map.mpr hseg₂),
      filter_segment_eq (forall_mem_map.mpr hseg₃),
      filter_segment_eq (forall_mem_map.mpr hseg₄')]
    simp only [mem_cons, not_mem_nil, or_false] at he
    rcases he with rfl | rfl | rfl
    · simpa [h₁.segment_eq] using h₁.holds
    · simpa [h₂.segment_eq] using h₂.holds
    · simpa [h₃.segment_eq] using h₃.holds
  · intro e he hseg
    simp only [mem_cons, not_mem_nil, or_false] at he
    rcases he with rfl | rfl | rfl
    · exact hfirst
    · cases h₂.segment_eq.symm.trans hseg
    · cases h₃.segment_eq.symm.trans hseg

theorem placeAll_ok (hpage : Alignment.page.value ∣ textStart - headerSpace)
    (h : placeAll t textStart (sectionsOf t) = .ok (extents, placed, places)) :
    ∃ fills, placed = fills.map (·.1) ∧ places = fills.flatMap (·.2) ∧
      Arranged t textStart extents fills := by
  obtain ⟨⟨extents', loaded, places₁, dataEnd⟩, hloads, h⟩ := bind_eq_ok.mp h
  obtain ⟨⟨threadLocal, places₂, stop⟩, htls, h⟩ := bind_eq_ok.mp h
  cases pure_eq_ok.mp h
  obtain ⟨⟨e₁, placed₁, places₁, stop₁⟩, htext, h⟩ := bind_eq_ok.mp hloads
  obtain ⟨⟨extents₂, placed₂, places₂, stop₂⟩, hrest, h⟩ := bind_eq_ok.mp h
  cases pure_eq_ok.mp h
  obtain ⟨fills₁, rfl, rfl, hfills₁, hholds₁, hsegment₁, rfl, haddress₁⟩ :=
    placeSegment_ok hpage (Nat.le_refl _) htext
  have hstop₁ := hholds₁.packed.le
  obtain ⟨groups, rfl, rfl, rfl, hgroups, hpack⟩ :=
    placeSegments_ok hpage (by omega) hholds₁.stop_le (by decide) (Placing.after_eq_ok.mp hrest)
  cases hgroups with
  | cons h₂ hgroups =>
  cases hgroups with
  | cons h₃ hgroups =>
  cases hgroups
  obtain ⟨fills₄, rfl, rfl, hfills₄, -, hhead, -⟩ :=
    placeSections_ok (Placing.after_eq_ok.mp htls)
  have hseg₄ := Fills.segment_of_mem hfills₄
  have hmoved : fills₄.map (settle dataEnd) = fills₄.map fun f => (moveTls dataEnd f.1, f.2) :=
    map_congr_left fun f hf => settle_of_eq (hseg₄ f hf)
  -- there is one thread-local section at most, and it is placed from zero on
  have hzero : ∀ f ∈ fills₄, f.1.address = 0 := by
    have hlength := length_sectionsIn_tls t
    rw [hfills₄.length_eq] at hlength
    intro f hf
    match hlist : fills₄, hlength, hf with
    | [g], _, hf =>
      obtain rfl := mem_singleton.mp hf
      rw [hhead f (by rw [hlist]; rfl), Alignment.alignUp_zero]
  have h₁ : GroupOf t textStart (sectionsOf t) .text (e₁, fills₁) := ⟨hsegment₁, hfills₁, hholds₁⟩
  have hspans : Packed (textStart - headerSpace) 0x100000000 (e₁.span :: _) :=
    .cons (Nat.le_of_eq haddress₁.symm) (Nat.le_add_right ..) hpack
  refine ⟨_, ?_, ?_, arranged_of_groups dataEnd h₁ h₂ h₃ hfills₄ hzero hspans haddress₁⟩
  · simp only [map_append, flatMap_cons, flatMap_nil, append_nil, hmoved,
      map_map, append_assoc]
    rfl
  · simp only [flatMap_append, flatMap_cons, flatMap_nil, append_nil, hmoved,
      flatMap_map, append_assoc]

end Layout

end ArmLink
