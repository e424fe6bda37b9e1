import ArmLink.Proofs.Layout.Packing

/-!
# Where symbols lie

The kind of a symbol decides in which segment it lies, if it lies within no other symbol. Since the
segments follow each other, an address lies in one of them at most.
-/

namespace ArmLink

open List

/-- An address lies in a segment. -/
def Extent.Contains (e : Extent) (address : Nat) : Prop := e.address ≤ address ∧ address < e.stop

instance (e : Extent) (address : Nat) : Decidable (e.Contains address) :=
  inferInstanceAs (Decidable (_ ∧ _))

namespace Layout

open Elf SymbolTable

variable {t t₁ t₀ : SymbolTable} {l : Layout} {fills : List Fill} {id : SymbolId} {e e' : Extent}

/-- The segment of the symbols of a kind. -/
def segmentOf : SymbolKind → Segment
  | .text | .codeTable => .text
  | .readOnlyData | .typeLink | .symbolTable | .pcLineTable | .readOnlyTable => .rodata
  | .tlsBss => .tls
  | _ => .data

theorem segmentOf_of_mem : ∀ e ∈ sectionOrder, segmentOf e.1 = e.2.1 := by decide

theorem segmentOf_eq_text {kind : SymbolKind} : segmentOf kind = .text ↔ kind.isText = true := by
  cases kind <;> decide

namespace Computed

variable (h : Computed t l t₁ t₀ fills)
include h

theorem segment_of_mem {s : Section} (hs : s ∈ l.sections) (hid : id ∈ s.symbols) :
    s.segment = segmentOf (t₁.get id).kind := by
  -- the section was made for the kind of its symbols
  have hmem : s.plain ∈ sectionsOf t₁ := h.map_plain ▸ mem_map_of_mem hs
  obtain ⟨⟨kind, segment, grouping⟩, hentry, hkind⟩ := mem_flatMap.mp hmem
  obtain ⟨name, symbols, heq, hcandidates, -⟩ := mem_sectionsOfKind hkind
  have hsymbols : s.symbols = symbols := congrArg Section.symbols heq
  obtain ⟨-, rfl⟩ := mem_candidates.mp (hcandidates id (hsymbols ▸ hid))
  exact (congrArg Section.segment heq).trans (segmentOf_of_mem _ hentry).symm

theorem origin_of_ne_tlsBss {s : Section} (hs : s ∈ l.sections) (hid : id ∈ s.symbols)
    (htls : (t₁.get id).kind ≠ .tlsBss) : s.origin = s.address := by
  refine if_neg fun hts => htls ?_
  rw [h.segment_of_mem hs hid] at hts
  revert hts
  cases (t₁.get id).kind <;> decide

/-- A symbol with a place lies in its section, unless it is thread-local. -/
theorem section_of_mem (hid : id ∈ l.symbols) (htls : (t₁.get id).kind ≠ .tlsBss) :
    ∃ i s v, l.sections[i]? = some s ∧ s.segment = segmentOf (t₁.get id).kind ∧
      (t₁.get id).sectionId = some i ∧ (t₁.get id).value = some v ∧
      s.address ≤ v ∧ v + (t₁.get id).size ≤ s.address + s.length := by
  obtain ⟨s, hs, hmem⟩ := mem_flatMap.mp hid
  obtain ⟨i, hi⟩ := getElem?_of_mem hs
  obtain ⟨hsection, v, hv, -⟩ := h.value_of_mem hi hmem
  have hwithin := (h.packed_symbols hs).within (mem_map_of_mem hmem)
  simp only [SymbolTable.span, Span.ofLength, hv, Option.getD_some,
    h.origin_of_ne_tlsBss hs hmem htls] at hwithin
  exact ⟨i, s, v, hi, h.segment_of_mem hs hmem, hsection, hv, hwithin.1, by omega⟩

/-- **Located.** A symbol that lies within no other lies in the segment of its kind, unless it is
thread-local. -/
theorem located (hcandidate : isCandidate (t.get id) = true)
    (hplaced : (t₁.get id).kind.isPlaced = true) (htls : (t₁.get id).kind ≠ .tlsBss) :
    ∃ e ∈ l.extents, e.segment = segmentOf (t₁.get id).kind ∧ ∃ v, (t₁.get id).value = some v ∧
      e.address ≤ v ∧ v + (t₁.get id).size ≤ e.stop := by
  obtain ⟨i, s, v, hi, hsegment, -, hv, hle, hend⟩ :=
    h.section_of_mem (h.mem_symbols.mpr ⟨hcandidate, hplaced⟩) htls
  have hload : segmentOf (t₁.get id).kind ∈ Segment.loads := by
    revert htls
    cases (t₁.get id).kind <;> decide
  rw [← h.arranged.segments] at hload
  obtain ⟨e, he, hextent⟩ := mem_map.mp hload
  obtain ⟨hstart, hstop⟩ :=
    h.section_within he (mem_of_getElem? hi) (hsegment.trans hextent.symm)
  exact ⟨e, he, hextent, v, hv, by omega, by omega⟩

/-- Thread-local data has no relocations. -/
theorem ne_tlsBss (hid : id ∈ l.symbols) (hrelocations : (t₁.get id).relocations ≠ []) :
    (t₁.get id).kind ≠ .tlsBss := by
  intro htls
  have hkind := h.kind_of_isCandidate (h.mem_symbols.mp hid).1
  rw [htls] at hkind
  refine hrelocations (Eq.trans ?_ (no_contents_of_promotedKind hkind rfl).2)
  exact (h.keeps.map Symbol.relocations).2 id

theorem extent_unique (he : e ∈ l.extents) (he' : e' ∈ l.extents) {address : Nat}
    (hin : e.Contains address) (hin' : e'.Contains address) : e = e' := by
  have hpairwise := pairwise_map.mp h.arranged.packed.pairwise
  obtain ⟨i, hi, rfl⟩ := mem_iff_getElem.mp he
  obtain ⟨j, hj, rfl⟩ := mem_iff_getElem.mp he'
  rw [pairwise_iff_getElem] at hpairwise
  rcases Nat.lt_trichotomy i j with hlt | heq | hlt
  · have hapart : l.extents[i].stop ≤ l.extents[j].address := hpairwise i j hi hj hlt
    obtain ⟨-, hstop⟩ := hin
    obtain ⟨hstart, -⟩ := hin'
    omega
  · subst heq
    rfl
  · have hapart : l.extents[j].stop ≤ l.extents[i].address := hpairwise j i hj hi hlt
    obtain ⟨hstart, -⟩ := hin
    obtain ⟨-, hstop⟩ := hin'
    omega

end Computed

end Layout

end ArmLink
