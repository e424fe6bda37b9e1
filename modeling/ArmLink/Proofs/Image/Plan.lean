import ArmLink.Proofs.Image.Assembly
import ArmLink.Proofs.Layout.Packing

/-!
# What is where in an output file

A planned file has three stretches: what stands before the first section, the bytes of the symbols,
and the tables behind them. Within each stretch the parts follow each other.
-/

namespace ArmLink.Image

open Elf ArmLink.Span List

variable {hosts : List HostRelocation} {id : Bytes} {t : SymbolTable} {l : Layout} {o : Options}
  {p : Plan}

/-! ## Contents -/

/-- The build id's note: its header, the id and padding. -/
def Plan.noteParts (p : Plan) (id : Bytes) : List Part :=
  p.front.note.toList.map fun (offset, size) =>
    ⟨offset, noteHeader size ++ id ++ Bytes.zeros (Alignment.word.alignUp size - size)⟩

/-- The bytes of a symbol at their place in the file, if they are stored: its data and zeros up to
its size. -/
def symbolPart? (t : SymbolTable) (l : Layout) (id : SymbolId) : Option Part :=
  let s := t.get id
  (s.value.bind l.fileOffset?).map fun offset =>
    ⟨offset, s.data ++ Bytes.zeros (s.size - s.data.length)⟩

/-- The tables of relocations for a host linker. -/
def Plan.relocationParts (p : Plan) : List Part :=
  p.relocations.map fun table => ⟨table.offset, table.entries.flatMap (·.bytes)⟩

/-- The symbols, the empty one included, and their names. -/
def SymbolSection.contents (s : SymbolSection) : List Part :=
  [⟨s.offset, Bytes.zeros SymbolEntry.byteSize ++ s.symbols.flatMap (·.entry.bytes)⟩,
    ⟨s.namesOffset, s.names.bytes⟩]

/-- The tables behind the symbols' bytes. -/
def Plan.tailContents (p : Plan) : List Part :=
  p.relocationParts ++ p.symbols.toList.flatMap (·.contents)
    ++ [⟨p.namesOffset, p.names.bytes⟩, ⟨p.headersOffset, p.sections.flatMap (·.bytes)⟩]

/-- All parts of a file, given the build id: the header, the program headers, the path of the
dynamic loader, the note, the bytes of the symbols, the relocations, the symbols and their names,
the names of sections and the section headers. -/
def Plan.contents (p : Plan) (t : SymbolTable) (l : Layout) (id : Bytes) : List Part :=
  p.frontParts ++ p.noteParts id ++ (storedSymbols l).filterMap (symbolPart? t l)
    ++ p.tailContents

/-! ## The tables behind the symbols -/

theorem packed_symbolSections {symbols : List Listed} {strings : StringTable} {index offset : Nat}
    {names : StringTable} : let s := (symbolSections symbols strings index offset names).1
    Packed offset (s.namesOffset + s.names.bytes.length) (s.contents.map Part.span) := by
  have hsize : (Bytes.zeros SymbolEntry.byteSize ++ symbols.flatMap (·.entry.bytes)).length =
      (symbols.length + 1) * SymbolEntry.byteSize := by
    rw [length_append, Bytes.length_zeros,
      length_flatMap_of_forall fun s : Listed => SymbolEntry.length_bytes s.entry, Nat.succ_mul,
      Nat.add_comm]
  refine .cons (Alignment.le_alignUp ..) (Nat.le_add_right ..) (.cons ?_ (Nat.le_add_right ..) ?_)
  · show Alignment.word.alignUp offset + _ ≤ _
    exact Nat.le_of_eq (congrArg _ hsize)
  · exact .nil (Nat.le_refl _)

/-- What the plan of a file settles. -/
structure Planned (t : SymbolTable) (l : Layout) (o : Options) (p : Plan) : Prop where
  front : p.front = Front.compute l o
  fits : p.front.stop ≤ headerSpace
  segments : ∃ text, l.extent? .text = some text ∧
    p.segments = segmentHeaders l o.isExternal text.address p.front
  /-- the tables behind the mapped part follow each other up to the end of the file -/
  tail : Packed l.fileSize p.fileSize (p.tailContents.map Part.span)

theorem packed_end {lo namesOffset : Nat} {names : Bytes} {sections : List SectionHeader}
    (hlo : lo ≤ namesOffset) :
    let headersOffset := Alignment.word.alignUp (namesOffset + names.length)
    Packed lo (headersOffset + sections.length * SectionHeader.byteSize)
      [Part.span ⟨namesOffset, names⟩, Part.span ⟨headersOffset, sections.flatMap (·.bytes)⟩] := by
  refine .cons hlo (Nat.le_add_right ..) (.cons (Alignment.le_alignUp ..) (Nat.le_add_right ..) ?_)
  refine .nil (Nat.le_of_eq ?_)
  show _ + (sections.flatMap _).length = _
  rw [length_flatMap_of_forall SectionHeader.length_bytes]

theorem Assembled.packed_symbols {a : Assembly} (ha : Assembled t l o hosts p a) :
    Packed a.stop p.namesOffset ((p.symbols.toList.flatMap (·.contents)).map Part.span) := by
  have hbehind := ha.behind
  split at hbehind
  · obtain ⟨hsymbols, -, -, hoffset⟩ := hbehind
    rw [hsymbols, hoffset, Option.toList_some, flatMap_singleton]
    exact packed_symbolSections ..
  · obtain ⟨hsymbols, -, -, hoffset⟩ := hbehind
    rw [hsymbols, hoffset]
    exact .nil (Nat.le_refl _)

theorem plan_ok (h : plan t l o hosts = .ok p) : Planned t l o p := by
  obtain ⟨a, ha⟩ := plan_assembled h
  refine ⟨ha.front, ?_, ⟨a.text, ha.text, ha.segments⟩, ?_⟩
  · rw [ha.front]
    exact ha.fits
  · simp only [Plan.tailContents, Plan.relocationParts, map_append, map_map,
      Plan.fileSize, ha.headersOffset]
    exact (ha.packed_tables.append ha.packed_symbols).append
      (packed_end (Nat.le_refl _))

/-! ## Before the first section -/

section

theorem length_noteHeader {size : Nat} :
    (noteHeader size).length = noteHeaderSize + noteName.length := by
  simp only [noteHeader, length_append, Bytes.length_ofNat]
  rfl

theorem length_note {size : Nat} (hid : id.length = size) :
    (noteHeader size ++ id ++ Bytes.zeros (Alignment.word.alignUp size - size)).length =
      noteSize size := by
  have hle := Alignment.word.le_alignUp size
  rw [length_append, length_append, length_noteHeader, Bytes.length_zeros, hid, noteSize]
  omega

theorem packed_note (h : p.front = Front.compute l o)
    (hid : ∀ size ∈ o.buildIdSize?, id.length = size) :
    Packed (FileHeader.byteSize + p.front.headerCount * ProgramHeader.byteSize) p.front.stop
      ((p.front.interpreter.toList.map fun (offset, path) => Part.span ⟨offset, path⟩)
        ++ (p.noteParts id).map Part.span) := by
  unfold Plan.noteParts
  rw [h]
  unfold Front.compute
  cases o.interpreter? with
  | none =>
    cases hsize : o.buildIdSize? with
    | none => exact .nil (Nat.le_refl _)
    | some size =>
      have hlength := length_note (hid size hsize)
      refine .cons (Alignment.le_alignUp ..) (Nat.le_add_right ..) (.nil (Nat.le_of_eq ?_))
      exact congrArg (_ + ·) hlength
  | some path =>
    cases hsize : o.buildIdSize? with
    | none => exact .cons (Nat.le_refl _) (Nat.le_add_right ..) (.nil (Nat.le_refl _))
    | some size =>
      have hlength := length_note (hid size hsize)
      refine .cons (Nat.le_refl _) (Nat.le_add_right ..)
        (.cons (Alignment.le_alignUp ..) (Nat.le_add_right ..) (.nil (Nat.le_of_eq ?_)))
      exact congrArg (_ + ·) hlength

theorem length_extents {u t₀ : SymbolTable} {fills : List Layout.Fill}
    (hc : Layout.Computed u l t t₀ fills) : l.extents.length = Segment.loads.length := by
  rw [← hc.arranged.segments, length_map]

/-- In either mode the program headers are as many as room was kept for. -/
theorem Planned.count_segments (h : Planned t l o p)
    (hextents : l.extents.length = Segment.loads.length) :
    p.segments.length = p.front.headerCount := by
  obtain ⟨text, -, hsegments⟩ := h.segments
  rw [hsegments, h.front]
  cases hmode : o.isExternal with
  | false =>
    simp only [segmentHeaders, Bool.false_eq_true, if_false, length_append, length_map,
      hextents, length_singleton, Front.compute, programHeaderCount, hmode, frontHeaders,
      sectionSegments]
    cases o.interpreter? <;> cases o.buildIdSize? <;> cases l.section? SectionName.dynamic <;>
      cases l.tlsSection? <;> rfl
  | true =>
    -- an object file has no program headers
    simp [segmentHeaders, Front.compute, programHeaderCount, hmode]

/-- What stands before the first section fits there if there is room for the program headers. -/
theorem Planned.packed_front (h : Planned t l o p)
    (hcount : p.segments.length = p.front.headerCount)
    (hid : ∀ size ∈ o.buildIdSize?, id.length = size) :
    Packed 0 headerSpace ((p.frontParts ++ p.noteParts id).map Part.span) := by
  have hsegments : (p.segments.flatMap (·.bytes)).length =
      p.front.headerCount * ProgramHeader.byteSize := by
    rw [length_flatMap_of_forall ProgramHeader.length_bytes, hcount]
  have hnote := packed_note h.front hid
  rw [← hsegments] at hnote
  simp only [Plan.frontParts, map_append, map_map, append_assoc]
  refine .cons (Nat.le_refl _) (Nat.le_add_right ..) (.cons ?_ (Nat.le_add_right ..) ?_)
  · show 0 + p.fileHeader.bytes.length ≤ _
    rw [FileHeader.length_bytes, Nat.zero_add]
    exact Nat.le_refl _
  · exact hnote.widen (Nat.le_refl _) h.fits

theorem Planned.front_fits (h : Planned t l o p) :
    FileHeader.byteSize + p.front.headerCount * ProgramHeader.byteSize ≤ headerSpace ∧
      (∀ offset path, p.front.interpreter = some (offset, path) →
        offset + path.length ≤ headerSpace) ∧
      ∀ offset size, p.front.note = some (offset, size) →
        offset + noteSize size ≤ headerSpace := by
  have hfits := h.fits
  have halign := Alignment.word.le_alignUp
  rw [h.front] at hfits ⊢
  simp only [Front.compute] at hfits ⊢
  revert hfits
  cases o.interpreter? with
  | none =>
    cases o.buildIdSize? with
    | none =>
      intro hfits
      refine ⟨hfits, ?_, ?_⟩ <;> rintro _ _ ⟨⟩
    | some size =>
      intro hfits
      refine ⟨Nat.le_trans (halign _) (Nat.le_trans (Nat.le_add_right ..) hfits), ?_, ?_⟩ <;>
        rintro _ _ ⟨⟩
      exact hfits
  | some path =>
    cases o.buildIdSize? with
    | none =>
      intro hfits
      refine ⟨Nat.le_trans (Nat.le_add_right ..) hfits, ?_, ?_⟩ <;> rintro _ _ ⟨⟩
      exact hfits
    | some size =>
      intro hfits
      have hpath := Nat.le_trans (halign _) (Nat.le_trans (Nat.le_add_right ..) hfits)
      refine ⟨Nat.le_trans (Nat.le_add_right ..) hpath, ?_, ?_⟩
      · rintro _ _ ⟨⟩
        exact hpath
      · rintro _ _ ⟨⟩
        exact hfits

end

/-! ## Names -/

/-- **Names.** The header of the section of names of sections stands at its index, and that of the
names of symbols two behind it. -/
theorem names_of_plan (h : plan t l o hosts = .ok p) :
    (p.sections[p.namesIndex]?.map (·.offset)) = some p.namesOffset ∧
      ∀ s ∈ p.symbols, (p.sections[p.namesIndex + 2]?.map (·.offset)) = some s.namesOffset := by
  obtain ⟨a, ha⟩ := plan_assembled h
  refine ⟨congrArg (Option.map _) (ha.getElem?_behind 0), fun s hs => ?_⟩
  rw [ha.getElem?_behind 2]
  have hbehind := ha.behind
  split at hbehind
  · obtain ⟨hsymbols, hheaders, -⟩ := hbehind
    cases hs.symm.trans hsymbols
    rw [hheaders]
    rfl
  · cases hs.symm.trans hbehind.1

end ArmLink.Image
