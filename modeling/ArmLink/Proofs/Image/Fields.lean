import ArmLink.Proofs.Image.Load

/-!
# Numbers in written files

Addresses, offsets and sizes have 64 bits while a link goes on, and 32 bits in the headers and
tables of its file.
-/

namespace ArmLink

open List Bytes

variable {α : Type} {offset start stop size : Nat} {h : SectionHeader} {names : StringTable}

namespace Image

open Elf Layout Resolve ArmLink.Span SymbolTable

/-! ## Fields -/

/-- A number in a file: where it stands, in four bytes, and what it should be. -/
structure Field where
  offset : Nat
  value : Nat
  deriving DecidableEq, Repr

def programFields (start : Nat) (h : ProgramHeader) : List Field :=
  [⟨start + 4, h.offset⟩, ⟨start + 8, h.address⟩, ⟨start + 12, h.address⟩, ⟨start + 16, h.fileSize⟩,
    ⟨start + 20, h.memorySize⟩]

def sectionFields (start : Nat) (h : SectionHeader) : List Field :=
  [⟨start + 12, h.address⟩, ⟨start + 16, h.offset⟩, ⟨start + 20, h.size⟩]

def symbolFields (start : Nat) (s : Listed) : List Field :=
  [⟨start + 4, s.entry.value⟩, ⟨start + 8, s.entry.size⟩]

def relocationFields (start : Nat) (e : RelocationEntry) : List Field := [⟨start, e.offset⟩]

/-- The numbers of a table whose entries have a size. -/
def tableFields {α : Type} (fields : Nat → α → List Field) (size offset : Nat) (entries : List α) :
    List Field :=
  entries.zipIdx.flatMap fun (e, i) => fields (offset + i * size) e

/-- The addresses, offsets and sizes of a planned file: those of its header, of the segments, of the
sections, of the symbols behind the empty one, and of the relocations for a host linker. -/
def Plan.fields (p : Plan) : List Field :=
  [⟨24, p.entry⟩, ⟨32, p.headersOffset⟩]
    ++ tableFields programFields ProgramHeader.byteSize FileHeader.byteSize p.segments
    ++ tableFields sectionFields SectionHeader.byteSize p.headersOffset p.sections
    ++ p.symbols.toList.flatMap (fun s =>
      tableFields symbolFields SymbolEntry.byteSize (s.offset + SymbolEntry.byteSize) s.symbols)
    ++ p.relocations.flatMap fun table =>
      tableFields relocationFields RelocationEntry.byteSize table.offset table.entries

variable {fields : Nat → α → List Field} {entries : List α}

theorem mem_tableFields {f : Field} : f ∈ tableFields fields size offset entries ↔
      ∃ i e, entries[i]? = some e ∧ f ∈ fields (offset + i * size) e := by
  simp only [tableFields, mem_flatMap, Prod.exists, mem_zipIdx_iff_getElem?]
  constructor
  · rintro ⟨e, i, he, hf⟩
    exact ⟨i, e, he, hf⟩
  · rintro ⟨i, e, he, hf⟩
    exact ⟨e, i, he, hf⟩

theorem forall_tableFields {P : Nat → Prop}
    (h : ∀ e ∈ entries, ∀ start, ∀ f ∈ fields start e, P f.value) :
    ∀ f ∈ tableFields fields size offset entries, P f.value := by
  intro f hf
  obtain ⟨i, e, he, hf⟩ := mem_tableFields.mp hf
  exact h e (mem_of_getElem? he) _ f hf

/-! ## Reading -/

variable {image : Array UInt8}

/-- One of several words that stand in a file. -/
theorem numberAt_of_words {words : List Nat} {rest : Bytes}
    (h : Holds image ⟨start, words.flatMap (ofNat 4) ++ rest⟩) {i v : Nat}
    (hi : words[i]? = some v) : numberAt image (start + i * 4) 4 = v % 2 ^ 32 :=
  numberAt_of_holds (h.of_piece ((piece_flatMap (length_ofNat 4) hi start).append_left rest))

theorem numberAt_programFields {h : ProgramHeader} (hholds : Holds image ⟨start, h.bytes⟩) :
    ∀ f ∈ programFields start h, numberAt image f.offset 4 = f.value % 2 ^ 32 := by
  have hwords : h.bytes = [h.type, h.offset, h.address, h.address, h.fileSize, h.memorySize,
      h.flags, h.alignment].flatMap (ofNat 4) ++ [] := by
    simp [ProgramHeader.bytes]
  rw [hwords] at hholds
  simp only [programFields, forall_mem_cons]
  exact ⟨numberAt_of_words (i := 1) hholds rfl, numberAt_of_words (i := 2) hholds rfl,
    numberAt_of_words (i := 3) hholds rfl, numberAt_of_words (i := 4) hholds rfl,
    numberAt_of_words (i := 5) hholds rfl, forall_mem_nil _⟩

theorem numberAt_sectionFields (hholds : Holds image ⟨start, h.bytes⟩) :
    ∀ f ∈ sectionFields start h, numberAt image f.offset 4 = f.value % 2 ^ 32 := by
  have hwords : h.bytes = [h.name, h.type, h.flags, h.address, h.offset, h.size].flatMap
      (ofNat 4) ++ [h.link, h.info, h.alignment, h.entrySize].flatMap (ofNat 4) := by
    simp [SectionHeader.bytes]
  rw [hwords] at hholds
  simp only [sectionFields, forall_mem_cons]
  exact ⟨numberAt_of_words (i := 3) hholds rfl, numberAt_of_words (i := 4) hholds rfl,
    numberAt_of_words (i := 5) hholds rfl, forall_mem_nil _⟩

theorem numberAt_symbolFields {s : Listed} (hholds : Holds image ⟨start, s.entry.bytes⟩) :
    ∀ f ∈ symbolFields start s, numberAt image f.offset 4 = f.value % 2 ^ 32 := by
  have hwords : s.entry.bytes = [s.entry.name, s.entry.value, s.entry.size].flatMap (ofNat 4)
      ++ (ofNat 1 s.entry.info ++ ofNat 1 0 ++ ofNat 2 s.entry.sectionIndex) := by
    simp [SymbolEntry.bytes]
  rw [hwords] at hholds
  simp only [symbolFields, forall_mem_cons]
  exact ⟨numberAt_of_words (i := 1) hholds rfl, numberAt_of_words (i := 2) hholds rfl,
    forall_mem_nil _⟩

theorem numberAt_relocationFields {e : RelocationEntry} (hholds : Holds image ⟨start, e.bytes⟩) :
    ∀ f ∈ relocationFields start e, numberAt image f.offset 4 = f.value % 2 ^ 32 := by
  have hwords : e.bytes = [e.offset].flatMap (ofNat 4) ++ ofWord e.info := by
    simp [RelocationEntry.bytes]
  rw [hwords] at hholds
  simp only [relocationFields, forall_mem_cons]
  exact ⟨numberAt_of_words (i := 0) hholds rfl, forall_mem_nil _⟩

theorem numberAt_tableFields {bytes : α → Bytes} {n : Nat} (hbytes : ∀ a, (bytes a).length = n)
    (hfields : ∀ {start a}, Holds image ⟨start, bytes a⟩ →
      ∀ f ∈ fields start a, numberAt image f.offset 4 = f.value % 2 ^ 32)
    (h : Holds image ⟨offset, entries.flatMap bytes⟩) :
    ∀ f ∈ tableFields fields n offset entries, numberAt image f.offset 4 = f.value % 2 ^ 32 := by
  intro f hf
  obtain ⟨i, e, he, hf⟩ := mem_tableFields.mp hf
  exact hfields (h.of_piece (piece_flatMap hbytes he offset)) f hf

theorem numberAt_fileHeader {h : FileHeader} (hholds : Holds image ⟨0, h.bytes⟩) :
    numberAt image 24 4 = h.entry % 2 ^ 32 ∧ numberAt image 32 4 = h.sectionHeaders % 2 ^ 32 := by
  let front := FileHeader.identification ++ ofNat 2 h.type ++ ofNat 2 h.machine
  let words := [1, h.entry, if h.programHeaderCount ≠ 0 then FileHeader.byteSize else 0,
    h.sectionHeaders]
  let rest := ofNat 4 h.flags ++ ofNat 2 FileHeader.byteSize
    ++ ofNat 2 (if h.programHeaderCount ≠ 0 then ProgramHeader.byteSize else 0)
    ++ ofNat 2 h.programHeaderCount ++ ofNat 2 SectionHeader.byteSize
    ++ ofNat 2 h.sectionHeaderCount ++ ofNat 2 h.namesIndex
  have hbytes : h.bytes = front ++ (words.flatMap (ofNat 4) ++ rest) ++ [] := by
    simp only [FileHeader.bytes, front, words, rest, flatMap_cons, flatMap_nil,
      append_assoc, append_nil]
  have hpiece : (⟨20, words.flatMap (ofNat 4) ++ rest⟩ : Part).Piece ⟨0, h.bytes⟩ :=
    ⟨front, [], hbytes, by simp [front, FileHeader.identification]⟩
  have hwords := hholds.of_piece hpiece
  exact ⟨numberAt_of_words (i := 1) hwords rfl, numberAt_of_words (i := 3) hwords rfl⟩

variable {t : SymbolTable} {l : Layout} {p : Plan} {id : Bytes}

/-- **Reading.** What is read in a file that holds all of its parts are the planned numbers, without
their high bits. -/
theorem numberAt_of_mem_fields (h : ∀ part ∈ p.contents t l id, Holds image part) :
    ∀ f ∈ p.fields, numberAt image f.offset 4 = f.value % 2 ^ 32 := by
  simp only [Plan.contents, Plan.frontParts, Plan.tailContents, forall_mem_append,
    forall_mem_cons] at h
  obtain ⟨⟨⟨⟨⟨hheader, hsegments, -⟩, -⟩, -⟩, -⟩, ⟨hrelocations, hsymbols⟩, -, hsections, -⟩ := h
  obtain ⟨hentry, hoffset⟩ := numberAt_fileHeader hheader
  simp only [Plan.fields, forall_mem_append, forall_mem_cons, forall_mem_flatMap]
  refine ⟨⟨⟨⟨⟨hentry, hoffset, forall_mem_nil _⟩, ?_⟩, ?_⟩, fun s hs => ?_⟩,
    fun table htable => ?_⟩
  · exact numberAt_tableFields ProgramHeader.length_bytes numberAt_programFields hsegments
  · exact numberAt_tableFields SectionHeader.length_bytes numberAt_sectionFields hsections
  · -- the empty symbol stands before the others
    have hcontents := hsymbols _ (mem_flatMap.mpr ⟨s, hs, mem_cons_self⟩)
    have hpiece : Part.Piece ⟨s.offset + SymbolEntry.byteSize, s.symbols.flatMap (·.entry.bytes)⟩
        ⟨s.offset, zeros SymbolEntry.byteSize ++ s.symbols.flatMap (·.entry.bytes)⟩ := by
      refine .append_right ?_
      exact .refl _
    exact numberAt_tableFields (fun s : Listed => SymbolEntry.length_bytes s.entry)
      numberAt_symbolFields (hcontents.of_piece hpiece)
  · exact numberAt_tableFields RelocationEntry.length_bytes numberAt_relocationFields
      (hrelocations _ (mem_map_of_mem htable))

/-! ## Where the numbers come from -/

variable {o : Options} {hosts : List HostRelocation}

/-- Where the numbers in the tables of a planned file come from. -/
structure Itemized (t : SymbolTable) (l : Layout) (o : Options) (hosts : List HostRelocation)
    (p : Plan) : Prop where
  entry : ∃ warning, entryAddress t l o = .ok (p.entry, warning)
  /-- sections stand before the first one, are laid out, or are tables of the file -/
  sections : ∀ h ∈ p.sections, (∃ text, l.extent? .text = some text ∧
      h ∈ (frontSections text.address p.front .empty).1) ∨
    (∃ s ∈ l.sections, ∃ name, h = layoutSection l o.isExternal s name) ∨ Before p.headersOffset h
  symbols : ∀ s ∈ p.symbols, s.symbols = (listed t l o.isExternal).1
  relocations : ∀ table ∈ p.relocations, ∀ e ∈ table.entries, ∃ r ∈ hosts, ∃ symbols i,
    (t.get r.owner).sectionId = some i ∧ relocationEntry t symbols (l.getSection i) r = .ok e

theorem mem_layoutSections {external : Bool} {sections : List Section}
    (hmem : h ∈ (layoutSections l external sections names).1) :
    ∃ s ∈ sections, ∃ name, h = layoutSection l external s name := by
  induction sections generalizing names with
  | nil => cases hmem
  | cons s sections ih =>
    rcases mem_cons.mp hmem with rfl | hmem
    · exact ⟨s, mem_cons_self, _, rfl⟩
    · obtain ⟨s', hs', hname⟩ := ih hmem
      exact ⟨s', mem_cons_of_mem _ hs', hname⟩

theorem before_symbolSections {symbols : List Listed} {strings : StringTable} {index : Nat} :
    offset ≤ (symbolSections symbols strings index offset names).1.namesOffset +
        (symbolSections symbols strings index offset names).1.names.bytes.length ∧
      ∀ header ∈ (symbolSections symbols strings index offset names).2.1,
        Before ((symbolSections symbols strings index offset names).1.namesOffset +
          (symbolSections symbols strings index offset names).1.names.bytes.length) header := by
  have hoffset := Alignment.word.le_alignUp offset
  refine ⟨?_, forall_mem_cons.mpr ⟨⟨rfl, ?_⟩, forall_mem_singleton.mpr ⟨rfl, ?_⟩⟩⟩
  · show offset ≤ Alignment.word.alignUp offset + _ + _
    omega
  · exact Nat.le_add_right ..
  · exact Nat.le_refl _

theorem Before.mono {stop' : Nat} (hbefore : Before stop h) (hle : stop ≤ stop') :
    Before stop' h := ⟨hbefore.1, Nat.le_trans hbefore.2 hle⟩

theorem itemized_sections {text : Extent} {front : Front}
    {headers tables behind : List SectionHeader} {names : SectionHeader}
    (htext : l.extent? .text = some text)
    (hheaders : ∀ h ∈ headers, ∃ s ∈ l.sections, ∃ name, h = layoutSection l o.isExternal s name)
    (htables : ∀ h ∈ tables, Before stop h) (hstop : stop ≤ names.offset)
    (hbehind : ∀ h ∈ behind, Before names.offset h) (hnames : names.address = 0) :
    ∀ h ∈ (frontSections text.address front .empty).1 ++ headers ++ tables ++ [names] ++ behind,
      (∃ text, l.extent? .text = some text ∧ h ∈ (frontSections text.address front .empty).1) ∨
      (∃ s ∈ l.sections, ∃ name, h = layoutSection l o.isExternal s name) ∨
        Before (Alignment.word.alignUp (names.offset + names.size)) h := by
  have hend := Alignment.word.le_alignUp (names.offset + names.size)
  simp only [forall_mem_append, forall_mem_singleton]
  refine ⟨⟨⟨⟨fun h hh => .inl ⟨text, htext, hh⟩, fun h hh => .inr (.inl (hheaders h hh))⟩,
    fun h hh => .inr (.inr ((htables h hh).mono ?_))⟩, .inr (.inr ⟨hnames, hend⟩)⟩,
    fun h hh => .inr (.inr ((hbehind h hh).mono ?_))⟩ <;> omega

theorem itemized_of_plan (h : plan t l o hosts = .ok p) : Itemized t l o hosts p := by
  obtain ⟨a, ha⟩ := plan_assembled h
  obtain ⟨-, -, -, -, htables, -⟩ := relocationTables_ok ha.tables
  have hbehind := ha.behind
  refine ⟨ha.entry, ?_, fun s hs => ?_, fun table htable e he => ?_⟩
  · have hstop : a.stop ≤ p.namesOffset ∧ ∀ h ∈ a.symbols, Before p.namesOffset h := by
      split at hbehind
      · obtain ⟨-, hheaders, -, hoffset⟩ := hbehind
        rw [hheaders, hoffset]
        exact before_symbolSections ..
      · obtain ⟨-, hheaders, -, hoffset⟩ := hbehind
        rw [hheaders, hoffset]
        exact ⟨Nat.le_refl _, forall_mem_nil _⟩
    rw [ha.sections, ha.headersOffset, ha.front]
    exact itemized_sections ha.text (fun h hh => mem_layoutSections hh) htables hstop.1 hstop.2 rfl
  · split at hbehind
    · rename_i hhas
      cases hs.symm.trans hbehind.1
      exact congrArg Prod.fst (if_pos hhas)
    · cases hs.symm.trans hbehind.1
  · obtain ⟨i, hi⟩ := getElem?_of_mem htable
    obtain ⟨hlt, -⟩ := List.getElem?_eq_some_iff.mp hi
    rw [ha.length_relocations] at hlt
    obtain ⟨_, header, htable, -, hholds⟩ := ha.holdsGroup (getElem?_eq_getElem hlt)
    cases hi.symm.trans htable
    obtain ⟨r, hr, hentry⟩ := exists_of_mapM_ok hholds.entries e he
    obtain ⟨-, hgroup, -⟩ := (mem_groups ha.groups).mp (getElem_mem hlt)
    rw [hgroup] at hr
    obtain ⟨hmem, hsection⟩ := mem_filter.mp hr
    exact ⟨r, hmem, _, _, of_decide_eq_true hsection, hentry⟩

end Image

end ArmLink
