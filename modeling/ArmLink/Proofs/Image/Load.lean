import ArmLink.Proofs.Image.Write

/-!
# Loading a written file

A loader reads the program headers that the file header points to and maps the segments that are to
be loaded: bytes of the file, and zeros behind them. What it gets from a written file is what the
layout promised: each symbol's bytes at the symbol's address.
-/

namespace ArmLink.Image

open Elf Layout Resolve ArmLink.Span SymbolTable List Bytes

variable {offset n v i a : Nat} {image : Array UInt8}

/-! ## A loader -/

/-- The number in the `n` bytes of a file from `offset` on. -/
def numberAt (image : Array UInt8) (offset n : Nat) : Nat :=
  toNat ((range n).map fun i => image.getD (offset + i) 0)

/-- The program header at an offset. -/
def programHeaderAt (image : Array UInt8) (offset : Nat) : ProgramHeader where
  type := numberAt image offset 4
  offset := numberAt image (offset + 4) 4
  address := numberAt image (offset + 8) 4
  fileSize := numberAt image (offset + 16) 4
  memorySize := numberAt image (offset + 20) 4
  flags := numberAt image (offset + 24) 4
  alignment := numberAt image (offset + 28) 4

/-- The program headers: the file header tells where they are, how large and how many. -/
def programHeaders (image : Array UInt8) : List ProgramHeader :=
  (range (numberAt image 44 2)).map fun i =>
    programHeaderAt image (numberAt image 28 4 + i * numberAt image 42 2)

def loadHeaders (image : Array UInt8) : List ProgramHeader :=
  (programHeaders image).filter (·.type = SegmentType.load)

/-- Memory: a byte at each address that is mapped. -/
abbrev Memory := Nat → Option UInt8

/-- Memory with a segment of a file mapped: its bytes in the file, and zeros up to its size. -/
def mapSegment (image : Array UInt8) (memory : Memory) (h : ProgramHeader) : Memory := fun a =>
  if h.address ≤ a ∧ a < h.address + h.memorySize then
    if a < h.address + h.fileSize then image[h.offset + (a - h.address)]? else some 0
  else memory a

/-- The memory that a loader makes of a file. -/
def load (image : Array UInt8) : Memory :=
  (loadHeaders image).foldl (mapSegment image) fun _ => none

/-! ## Reading headers -/

theorem Holds.of_piece {part piece : Part} (h : Holds image part) (hpiece : piece.Piece part) :
    Holds image piece :=
  fun q b hat => h q b (hpiece.at? hat)

theorem numberAt_of_holds (h : Holds image ⟨offset, ofNat n v⟩) :
    numberAt image offset n = v % 256 ^ n := by
  have hbytes : ((range n).map fun i => image.getD (offset + i) 0) = ofNat n v := by
    refine ext_getElem (by simp) fun i hi hi' => ?_
    rw [getElem_map, getElem_range, Array.getD_eq_getD_getElem?, h.getElem? hi',
      Option.getD_some]
  rw [numberAt, hbytes, toNat_ofNat]

theorem piece_flatMap {α : Type} {f : α → Bytes} (hf : ∀ a, (f a).length = n) {as : List α} {a : α}
    (hi : as[i]? = some a) (offset : Nat) :
    (⟨offset + i * n, f a⟩ : Part).Piece ⟨offset, as.flatMap f⟩ := by
  obtain ⟨hlt, rfl⟩ := List.getElem?_eq_some_iff.mp hi
  refine ⟨(as.take i).flatMap f, (as.drop (i + 1)).flatMap f, ?_, ?_⟩
  · show as.flatMap f = (as.take i).flatMap f ++ f as[i] ++ (as.drop (i + 1)).flatMap f
    rw [append_assoc, ← flatMap_cons, ← drop_eq_getElem_cons hlt,
      ← flatMap_append, take_append_drop]
  · rw [length_flatMap_of_forall hf, length_take, Nat.min_eq_left (Nat.le_of_lt hlt)]

/-- A program header as a loader reads it: fields have 32 bits. -/
def stored (h : ProgramHeader) : ProgramHeader where
  type := h.type % 256 ^ 4
  offset := h.offset % 256 ^ 4
  address := h.address % 256 ^ 4
  fileSize := h.fileSize % 256 ^ 4
  memorySize := h.memorySize % 256 ^ 4
  flags := h.flags % 256 ^ 4
  alignment := h.alignment % 256 ^ 4

theorem programHeaderAt_of_holds {h : ProgramHeader} (hholds : Holds image ⟨offset, h.bytes⟩) :
    programHeaderAt image offset = stored h := by
  have hfield {i v : Nat} (hi : [h.type, h.offset, h.address, h.address, h.fileSize, h.memorySize,
      h.flags, h.alignment][i]? = some v) : numberAt image (offset + i * 4) 4 = v % 256 ^ 4 :=
    numberAt_of_holds (hholds.of_piece (piece_flatMap (length_ofNat 4) hi offset))
  unfold programHeaderAt stored
  congr 1
  · exact hfield (i := 0) rfl
  · exact hfield (i := 6) rfl
  · exact hfield (i := 1) rfl
  · exact hfield (i := 2) rfl
  · exact hfield (i := 4) rfl
  · exact hfield (i := 5) rfl
  · exact hfield (i := 7) rfl

theorem piece_fileHeader (h : FileHeader) (hne : h.programHeaderCount ≠ 0) :
    (⟨28, ofNat 4 FileHeader.byteSize⟩ : Part).Piece ⟨0, h.bytes⟩ ∧
      (⟨42, ofNat 2 ProgramHeader.byteSize⟩ : Part).Piece ⟨0, h.bytes⟩ ∧
      (⟨44, ofNat 2 h.programHeaderCount⟩ : Part).Piece ⟨0, h.bytes⟩ := by
  let start := FileHeader.identification ++ ofNat 2 h.type ++ ofNat 2 h.machine
    ++ ofNat 4 1 ++ ofNat 4 h.entry
  let middle := ofNat 4 h.sectionHeaders ++ ofNat 4 h.flags
    ++ ofNat 2 FileHeader.byteSize
  let rest := ofNat 2 SectionHeader.byteSize ++ ofNat 2 h.sectionHeaderCount
    ++ ofNat 2 h.namesIndex
  have hbytes : h.bytes = start ++ ofNat 4 FileHeader.byteSize ++ middle
      ++ ofNat 2 ProgramHeader.byteSize ++ ofNat 2 h.programHeaderCount ++ rest := by
    simp only [FileHeader.bytes, start, middle, rest, if_pos hne, append_assoc]
  have hstart : start.length = 28 := by
    rfl
  have hmiddle : middle.length = 10 := by
    simp only [middle, length_append, length_ofNat]
  refine ⟨⟨start, middle ++ ofNat 2 ProgramHeader.byteSize
      ++ ofNat 2 h.programHeaderCount ++ rest, ?_, ?_⟩,
    ⟨start ++ ofNat 4 FileHeader.byteSize ++ middle,
      ofNat 2 h.programHeaderCount ++ rest, ?_, ?_⟩,
    ⟨start ++ ofNat 4 FileHeader.byteSize ++ middle
      ++ ofNat 2 ProgramHeader.byteSize, rest, hbytes, ?_⟩⟩
  · simp only [hbytes, append_assoc]
  · simp only [hstart, Nat.zero_add]
  · simp only [hbytes, append_assoc]
  · simp only [length_append, length_ofNat, hstart, hmiddle]
  · simp only [length_append, length_ofNat, hstart, hmiddle]

theorem programHeaders_of_holds {p : Plan} (hheader : Holds image ⟨0, p.fileHeader.bytes⟩)
    (hsegments : Holds image ⟨FileHeader.byteSize, p.segments.flatMap (·.bytes)⟩)
    (hpos : p.segments ≠ []) (hcount : p.segments.length < 256 ^ 2) :
    programHeaders image = p.segments.map stored := by
  have hne : p.segments.length ≠ 0 := fun hzero => hpos (eq_nil_of_length_eq_zero hzero)
  obtain ⟨hoffsetPiece, hsizePiece, hnumberPiece⟩ := piece_fileHeader p.fileHeader hne
  have hoffset : numberAt image 28 4 = FileHeader.byteSize :=
    numberAt_of_holds (hheader.of_piece hoffsetPiece)
  have hsize : numberAt image 42 2 = ProgramHeader.byteSize :=
    numberAt_of_holds (hheader.of_piece hsizePiece)
  have hnumber : numberAt image 44 2 = p.segments.length := by
    rw [numberAt_of_holds (hheader.of_piece hnumberPiece)]
    exact Nat.mod_eq_of_lt hcount
  unfold programHeaders
  rw [hoffset, hsize, hnumber]
  refine ext_getElem (by simp) fun i hi hi' => ?_
  rw [length_map] at hi'
  rw [getElem_map, getElem_map, getElem_range]
  refine programHeaderAt_of_holds (hsegments.of_piece ?_)
  exact piece_flatMap ProgramHeader.length_bytes (getElem?_eq_getElem hi') _

theorem filter_segmentHeaders {l : Layout} (hloads : l.extents.map (·.segment) = Segment.loads)
    (base : Nat) (front : Front) :
    ((segmentHeaders l false base front).map stored).filter (·.type = SegmentType.load) =
      l.extents.map fun e => stored (loadHeader e) := by
  have hfront : ((frontHeaders base front).map stored).filter (·.type = SegmentType.load) = [] := by
    unfold frontHeaders
    cases front.interpreter <;> cases front.note <;> rfl
  have hsections : ((sectionSegments l).map stored).filter (·.type = SegmentType.load) = [] := by
    unfold sectionSegments
    cases l.section? SectionName.dynamic <;> cases l.tlsSection? <;> rfl
  have hextents : (l.extents.map fun e => stored (loadHeader e)).filter
      (·.type = SegmentType.load) = l.extents.map fun e => stored (loadHeader e) := by
    refine filter_eq_self.mpr fun h hh => ?_
    obtain ⟨e, he, rfl⟩ := mem_map.mp hh
    have hsegment : e.segment ∈ Segment.loads := hloads ▸ mem_map_of_mem he
    have htypes : ∀ segment ∈ Segment.loads, segment.type % 256 ^ 4 = SegmentType.load := by
      decide
    exact decide_eq_true (htypes _ hsegment)
  unfold segmentHeaders
  rw [if_neg Bool.false_ne_true]
  simp only [map_append, filter_append, map_map, hfront, hsections, nil_append,
    append_nil]
  show (l.extents.map fun e => stored (loadHeader e)).filter _ ++ [] = _
  rw [append_nil, hextents]

/-! ## Mapping segments -/

/-- Whether a header maps an address. -/
def Maps (h : ProgramHeader) (a : Nat) : Prop := h.address ≤ a ∧ a < h.address + h.memorySize

/-- The byte that a header gives an address. -/
def byteAt (image : Array UInt8) (h : ProgramHeader) (a : Nat) : Option UInt8 :=
  if a < h.address + h.fileSize then image[h.offset + (a - h.address)]? else some 0

theorem foldl_mapSegment {headers : List ProgramHeader} {memory : Memory} {b : Option UInt8}
    (hagree : ∀ h ∈ headers, Maps h a → byteAt image h a = b)
    (hsome : memory a = b ∨ ∃ h ∈ headers, Maps h a) :
    headers.foldl (mapSegment image) memory a = b := by
  induction headers generalizing memory with
  | nil => exact hsome.resolve_right fun ⟨_, hh, _⟩ => nomatch hh
  | cons h headers ih =>
    obtain ⟨hhead, htail⟩ := forall_mem_cons.mp hagree
    refine ih htail ?_
    by_cases hmaps : Maps h a
    · left
      rw [← hhead hmaps]
      exact if_pos hmaps
    · have hskip : mapSegment image memory h a = memory a := if_neg hmaps
      rw [hskip]
      refine hsome.imp_right ?_
      rintro ⟨other, hother, hmapsOther⟩
      rcases mem_cons.mp hother with rfl | hother
      · exact absurd hmapsOther hmaps
      · exact ⟨other, hother, hmapsOther⟩

section

variable {t t₀ t₁ t₂ : SymbolTable} {l : Layout} {o : Options} {fills : List Fill} {c : Context}
  {hosts : List HostRelocation} {p : Plan} {e : Extent}

theorem stored_loadHeader (hc : Computed t l t₁ t₀ fills) (he : e ∈ l.extents)
    (hpos : 0 < e.length) :
    (stored (loadHeader e)).address = e.address ∧ (stored (loadHeader e)).memorySize = e.length ∧
      (stored (loadHeader e)).fileSize = e.fileLength ∧
      (stored (loadHeader e)).offset = e.address - l.imageBase := by
  have hholds := hc.arranged.holds e he
  have hlength := hholds.length_lt
  have hstop : e.address + e.length ≤ 0x100000000 := hholds.stop_le
  have hfile := (hc.stored_within he).1
  refine ⟨Nat.mod_eq_of_lt ?_, Nat.mod_eq_of_lt hlength, Nat.mod_eq_of_lt ?_, ?_⟩
  · show e.address < 0x100000000
    omega
  · show e.fileLength < 0x100000000
    omega
  · rw [← hc.fileOffset_eq he]
    refine Nat.mod_eq_of_lt ?_
    show e.fileOffset < 0x100000000
    rw [hc.fileOffset_eq he]
    omega

/-- The memory of a mapped segment: its bytes in the file, and zeros. -/
theorem load_of_mem (hc : Computed t l t₁ t₀ fills)
    (hheaders : loadHeaders image = l.extents.map fun e => stored (loadHeader e))
    (he : e ∈ l.extents) (hstart : e.address ≤ a) (hstop : a < e.stop) : load image a =
      if a < e.address + e.fileLength then image[a - l.imageBase]? else some 0 := by
  unfold load
  rw [hheaders]
  have hmaps {e' : Extent} (he' : e' ∈ l.extents) :
      Maps (stored (loadHeader e')) a ↔ 0 < e'.length ∧ e'.address ≤ a ∧ a < e'.stop := by
    by_cases hpos : 0 < e'.length
    · obtain ⟨haddress, hmemory, -, -⟩ := stored_loadHeader hc he' hpos
      rw [Maps, haddress, hmemory]
      exact ⟨fun h => ⟨hpos, h⟩, fun h => h.2⟩
    · have hzero : (stored (loadHeader e')).memorySize = 0 := by
        show e'.length % _ = 0
        rw [Nat.eq_zero_of_not_pos hpos, Nat.zero_mod]
      rw [Maps, hzero]
      omega
  have hpos : 0 < e.length := by
    change a < e.address + e.length at hstop
    omega
  refine foldl_mapSegment (fun h hh hmap => ?_)
    (.inr ⟨_, mem_map_of_mem he, (hmaps he).mpr ⟨hpos, hstart, hstop⟩⟩)
  obtain ⟨e', he', rfl⟩ := mem_map.mp hh
  obtain ⟨-, hstart', hstop'⟩ := (hmaps he').mp hmap
  obtain rfl : e' = e := by
    -- two segments that hold one address are the same
    refine Decidable.byContradiction fun hne => ?_
    have : Std.Symm fun a b : Extent => Apart a.span b.span := ⟨fun _ _ => Or.symm⟩
    have hspans : Apart e'.span e.span :=
      (pairwise_map.mp hc.arranged.packed.apart).forall he' he hne
    change e'.stop ≤ e.address ∨ e.stop ≤ e'.address at hspans
    omega
  obtain ⟨haddress, -, hfile, hoffset⟩ := stored_loadHeader hc he hpos
  have hbase := hc.imageBase_le he
  rw [byteAt, haddress, hfile, hoffset, ← Nat.sub_add_comm hbase, Nat.add_sub_of_le hstart]

theorem programHeaderCount_le (l : Layout) (o : Options) : programHeaderCount l o ≤ 9 := by
  unfold programHeaderCount
  repeat' split
  all_goals decide

theorem loadHeaders_of_holds (hc : Computed t l t₁ t₀ fills) (hplan : Planned t₂ l o p)
    (hmode : o.isExternal = false) (hfront : ∀ part ∈ p.frontParts, Holds image part) :
    loadHeaders image = l.extents.map fun e => stored (loadHeader e) := by
  obtain ⟨text, -, hsegments⟩ := hplan.segments
  rw [hmode] at hsegments
  have hne : p.segments ≠ [] := by
    rw [hsegments, segmentHeaders, if_neg Bool.false_ne_true]
    exact append_ne_nil_of_right_ne_nil _ (cons_ne_nil _ _)
  have hcount : p.segments.length < 256 ^ 2 := by
    have hlength := hplan.count_segments (length_extents hc)
    have hle := programHeaderCount_le l o
    rw [hlength, hplan.front]
    exact Nat.lt_of_le_of_lt hle (by decide)
  unfold loadHeaders
  rw [programHeaders_of_holds (hfront _ mem_cons_self)
    (hfront _ (mem_cons_of_mem _ mem_cons_self)) hne hcount, hsegments]
  exact filter_segmentHeaders hc.arranged.segments text.address p.front

theorem load_symbol (hc : Computed t l t₁ t₀ fills) (hkeeps : Keeps bare t₁ t₂)
    (happlied : ∀ id, AppliedAt c t₁ t₂ hosts id)
    (hheaders : loadHeaders image = l.extents.map fun e => stored (loadHeader e))
    (hholds : ∀ id ∈ storedSymbols l, ∀ part ∈ symbolPart? t₂ l id, Holds image part) {s : Section}
    (hs : s ∈ l.loaded) {id : SymbolId} (hid : id ∈ s.symbols) (hv : (t₂.get id).value = some v)
    (hi : i < (t₂.get id).size) : load image (v + i) = some ((t₂.get id).data.getD i 0) := by
  have hmem := (mem_filter.mp hs).1
  obtain ⟨-, hfits, hzeros⟩ := contents_of_mem hc hkeeps happlied hmem hid
  obtain ⟨e, he, hstart, hstop, hstored⟩ := hc.exists_extent hs
  have hwithin := span_within hc hs hid
  rw [← span_eq hkeeps, SymbolTable.span, hv] at hwithin
  change s.address ≤ v ∧ v + (t₂.get id).size ≤ s.address + s.length at hwithin
  rw [load_of_mem hc hheaders he (by omega) (by omega)]
  by_cases htype : s.type = SectionType.noBits
  · rw [if_pos htype] at hstored
    rw [if_neg (by omega), hzeros htype]
    rfl
  · rw [if_neg htype] at hstored
    rw [if_pos (by omega)]
    have hmemStored : id ∈ storedSymbols l := mem_storedSymbols.mpr ⟨s, hmem, htype, hid⟩
    obtain ⟨v', hv', hbase, hoffset⟩ :=
      fileOffset?_of_stored hc hkeeps happlied hmemStored (by omega)
    obtain rfl : v = v' := Option.some.inj (hv.symm.trans hv')
    have hpart : symbolPart? t₂ l id = some ⟨v - l.imageBase, (t₂.get id).data ++
        zeros ((t₂.get id).size - (t₂.get id).data.length)⟩ := by
      rw [symbolPart?, hv, Option.bind_some, hoffset]
      rfl
    have haddress : v + i - l.imageBase = v - l.imageBase + i := by omega
    rw [haddress]
    refine hholds id hmemStored _ hpart _ _ ?_
    rw [Part.at?_add]
    exact getElem?_append_zeros (by omega)

end

/-- **Load.** A file that is planned for symbols with addresses and resolved relocations can be
written. A loader maps three segments of it, and then each symbol of a mapped section is in memory
at its address: its data, and zeros up to its size. All parts of the file are there, and none of
them overlaps another: its headers, the interpreter, the build id, the symbols that are stored, the
tables. -/
theorem load_of_write {t t₁ t₂ : SymbolTable} {l : Layout} {o : Options} {first : Nat}
    {hosts : List HostRelocation} {p : Plan} {uuid : Bytes} (hs : t.HasSentinels)
    (hmode : o.isExternal = false) (hcompute : compute t o.isRelocatable first = .ok (l, t₁))
    (happly : apply t₁ l o.isExternal = .ok (t₂, hosts)) (hplan : plan t₂ l o hosts = .ok p)
    (huuid : uuid.length = 16) :
    ∃ image, p.write t₂ l o.buildId uuid = .ok image ∧ image.size = p.fileSize ∧
      (loadHeaders image).length = 3 ∧
      (∀ s ∈ l.sections, s.segment ≠ .tls → ∀ id ∈ s.symbols, ∃ v, (t₂.get id).value = some v ∧
        (t₂.get id).data.length ≤ (t₂.get id).size ∧
        ∀ i < (t₂.get id).size, load image (v + i) = some ((t₂.get id).data.getD i 0)) ∧
      (∀ id ∈ storedSymbols l, 0 < (t₂.get id).size → (symbolPart? t₂ l id).isSome) ∧
      ∃ id : Bytes, (∀ size ∈ o.buildIdSize?, id.length = size) ∧
        (p.contents t₂ l id).Pairwise (fun a b => a.span.Apart b.span) ∧
        ∀ part ∈ p.contents t₂ l id, part.span.stop ≤ image.size ∧ Holds image part := by
  obtain ⟨t₀, fills, hc⟩ := compute_ok hs hcompute
  obtain ⟨hkeeps, happlied⟩ := apply_ok happly
  have hplanned := plan_ok hplan
  obtain ⟨image, hwrite, -⟩ := exists_write hc hkeeps happlied hplanned huuid
  obtain ⟨id, hid, hsize, hpacked, hholds⟩ :=
    holds_of_write hc hkeeps happlied hplanned huuid hwrite
  have hfront : ∀ part ∈ p.frontParts, Holds image part := fun part hpart =>
    hholds part (List.mem_append_left _ (List.mem_append_left _ (List.mem_append_left _ hpart)))
  have hstored : ∀ id ∈ storedSymbols l, ∀ part ∈ symbolPart? t₂ l id, Holds image part :=
    fun id hid part hpart => hholds part (List.mem_append_left _
      (List.mem_append_right _ (List.mem_filterMap.mpr ⟨id, hid, hpart⟩)))
  have hheaders := loadHeaders_of_holds hc hplanned hmode hfront
  refine ⟨image, hwrite, hsize, ?_, ?_, ?_, id, hid, List.pairwise_map.mp hpacked.apart, ?_⟩
  · rw [hheaders, List.length_map, ← List.length_map (f := (·.segment)), hc.arranged.segments]
    rfl
  · intro s hs hsegment id hid
    have hload := hc.mem_loaded_of_ne_tls hs hsegment
    obtain ⟨⟨v, hv⟩, hfits, -⟩ := contents_of_mem hc hkeeps happlied hs hid
    exact ⟨v, hv, hfits, fun i hi =>
      load_symbol hc hkeeps happlied hheaders hstored hload hid hv hi⟩
  · intro id hid hpos
    obtain ⟨v, hv, -, hoffset⟩ := fileOffset?_of_stored hc hkeeps happlied hid hpos
    rw [symbolPart?, hv, Option.bind_some, hoffset]
    rfl
  · intro part hpart
    rw [hsize]
    exact ⟨(hpacked.within (List.mem_map_of_mem hpart)).2.2, hholds part hpart⟩

/-- A static program with a random build id. -/
def loadOptions : Options where
  outputKind := .static
  stripAll := true
  buildId := .uuid
  entry := .symbol "main"

theorem load_of_write_sample :
    packingSample.HasSentinels ∧ loadOptions.isExternal = false ∧ (Bytes.zeros 16).length = 16 ∧
    ∃ l t₁ t₂ hosts p image, compute packingSample loadOptions.isRelocatable 2 = .ok (l, t₁) ∧
      apply t₁ l loadOptions.isExternal = .ok (t₂, hosts) ∧ plan t₂ l loadOptions hosts = .ok p ∧
      p.write t₂ l loadOptions.buildId (Bytes.zeros 16) = .ok image ∧
      (List.range 8).map (fun i => load image (68608 + i)) =
        [some 1, some 2, some 3, some 16, some 1, some 0, some 0, some 0] := by
  have hs : packingSample.HasSentinels := by decide +kernel
  obtain ⟨l, t₁, hcompute, t₂, hosts, happly, p, hplan, hrun⟩ :
      ∃ l t₁, compute packingSample loadOptions.isRelocatable 2 = .ok (l, t₁) ∧
      ∃ t₂ hosts, apply t₁ l loadOptions.isExternal = .ok (t₂, hosts) ∧
        ∃ p, plan t₂ l loadOptions hosts = .ok p ∧
          decide ((∃ s ∈ l.sections, s.segment ≠ .tls ∧ 19 ∈ s.symbols) ∧
            (t₂.get 19).value = some 68608 ∧ (t₂.get 19).size = 8 ∧
            (t₂.get 19).data = [1, 2, 3, 16, 1, 0]) := by
    decide +kernel
  obtain ⟨⟨s, hsection, hsegment, hid⟩, hv, hsize, hdata⟩ := of_decide_eq_true hrun
  obtain ⟨image, hwrite, -, -, hload, -⟩ :=
    load_of_write hs rfl hcompute happly hplan (Bytes.length_zeros 16)
  obtain ⟨v, hv', -, hbytes⟩ := hload s hsection hsegment 19 hid
  obtain rfl : v = 68608 := Option.some.inj (hv'.symm.trans hv)
  rw [hsize, hdata] at hbytes
  refine ⟨hs, rfl, Bytes.length_zeros 16, l, t₁, t₂, hosts, p, image, hcompute, happly, hplan,
    hwrite, ?_⟩
  refine (List.map_congr_left fun i hi => hbytes i (List.mem_range.mp hi)).trans ?_
  rfl

end ArmLink.Image
