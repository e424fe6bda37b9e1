import ArmLink.Proofs.Image.Symbols

/-!
# What a written file holds

Writing puts the headers, the bytes of the symbols, the tables and the build id in place, some of
them in pieces. None of them overlaps another, so all of them are there in the end.
-/

namespace ArmLink.Image

open Elf Layout Resolve ArmLink.Span SymbolTable List

variable {image image' : Array UInt8} {id : SymbolId} {uuid : Bytes} {t : SymbolTable} {l : Layout}
  {n : Nat}

/-! ## Pieces -/

/-- The bytes of a symbol that are written, if there are any. -/
def symbolWrite? (t : SymbolTable) (l : Layout) (id : SymbolId) : Option Part :=
  let s := t.get id
  if s.data.isEmpty then none else (s.value.bind l.fileOffset?).map (⟨·, s.data⟩)

/-- The two pieces of the build id's note. -/
def Plan.noteWrites (p : Plan) (id : Bytes) : List Part :=
  p.front.note.toList.flatMap fun (offset, size) =>
    [⟨offset, noteHeader size⟩, ⟨offset + noteHeaderSize + noteName.length, id⟩]

/-- All pieces of a file, in the order in which they are written. -/
def Plan.writes (p : Plan) (t : SymbolTable) (l : Layout) (id : Bytes) : List Part :=
  p.frontParts ++ (storedSymbols l).filterMap (symbolWrite? t l) ++ p.tailParts ++ p.noteWrites id

theorem filterMap_cons_toList {α β : Type} (f : α → Option β) {a : α} {as : List α} :
    (a :: as).filterMap f = (f a).toList ++ as.filterMap f := by
  cases h : f a with
  | none => rw [filterMap_cons_none h, Option.toList_none, nil_append]
  | some b => rw [filterMap_cons_some h, Option.toList_some, singleton_append]

theorem putSymbol_ok (h : putSymbol t l image id = .ok image') :
    putAll image (symbolWrite? t l id).toList = .ok image' := by
  unfold putSymbol at h
  unfold symbolWrite?
  dsimp only at h ⊢
  split at h
  · rename_i hempty
    cases h
    rw [if_pos hempty]
    rfl
  · rename_i hempty
    rw [if_neg hempty]
    split at h
    · cases h
    · rename_i address hvalue
      split at h
      · cases h
      · rename_i offset hoffset
        split at h
        · rename_i image₁ hput
          cases h
          rw [hvalue, Option.bind_some, hoffset]
          refine putAll_cons.mpr ⟨image', ?_, rfl⟩
          show put image offset (t.get id).data = _
          rw [put, hput]
        · cases h

theorem putSymbols_ok {ids : List SymbolId} (h : ids.foldlM (putSymbol t l) image = .ok image') :
    putAll image (ids.filterMap (symbolWrite? t l)) = .ok image' := by
  induction ids generalizing image with
  | nil => exact h
  | cons id ids ih =>
    obtain ⟨image₁, hfirst, hrest⟩ := bind_eq_ok.mp h
    rw [filterMap_cons_toList]
    exact putAll_append.mpr ⟨image₁, putSymbol_ok hfirst, ih hrest⟩

theorem length_buildIdBytes {o : Options} (huuid : uuid.length = 16) (image : Array UInt8) :
    ∀ size ∈ o.buildIdSize?, (buildIdBytes o.buildId uuid image).length = size := by
  intro size hsize
  unfold Options.buildIdSize? at hsize
  split at hsize
  · cases hsize
  · cases hid : o.buildId with
    | none =>
      rw [hid] at hsize
      cases hsize
    | fast =>
      rw [hid] at hsize
      cases hsize
      exact Blake3.hash_length _
    | uuid =>
      rw [hid] at hsize
      cases hsize
      exact huuid
    | bytes id =>
      rw [hid] at hsize
      cases hsize
      rfl

theorem write_ok {p : Plan} {id : BuildId} (h : p.write t l id uuid = .ok image) :
    ∃ image₃, putAll p.blank (p.writes t l (buildIdBytes id uuid image₃)) = .ok image := by
  obtain ⟨image₁, hstart, h⟩ := bind_eq_ok.mp h
  obtain ⟨image₂, hsymbols, h⟩ := bind_eq_ok.mp h
  obtain ⟨image₃, hcomplete, hidentify⟩ := bind_eq_ok.mp h
  obtain ⟨image₄, htail, hnote⟩ := bind_eq_ok.mp hcomplete
  refine ⟨image₃, putAll_append.mpr ⟨image₄, putAll_append.mpr ⟨image₂, putAll_append.mpr
    ⟨image₁, hstart, putSymbols_ok hsymbols⟩, htail⟩, ?_⟩⟩
  unfold Plan.identify at hidentify
  unfold Plan.noteWrites
  cases hfront : p.front.note with
  | none =>
    rw [hfront] at hnote hidentify
    cases pure_eq_ok.mp hnote
    exact hidentify
  | some note =>
    rw [hfront] at hnote hidentify
    exact putAll_cons.mpr ⟨image₃, hnote, putAll_cons.mpr ⟨image, hidentify, rfl⟩⟩

/-! ## Parts and their pieces -/

theorem madeOf_note {offset size : Nat} {id : Bytes} : Part.MadeOf
      ⟨offset, noteHeader size ++ id ++ Bytes.zeros (Alignment.word.alignUp size - size)⟩
      [⟨offset, noteHeader size⟩, ⟨offset + noteHeaderSize + noteName.length, id⟩] := by
  have hoffset : offset + noteHeaderSize + noteName.length =
      offset + (noteHeader size).length := by
    rw [length_noteHeader, Nat.add_assoc]
  rw [hoffset]
  exact ((Part.MadeOf.self ⟨offset, noteHeader size⟩).append (.self _)).append (.zeros ..)

theorem madeOf_entry (offset : Nat) (e : SymbolEntry) :
    (⟨offset, e.bytes⟩ : Part).MadeOf (entryParts offset e) := by
  have hpieces := ((Part.MadeOf.self ⟨offset, e.bytes.take SymbolEntry.visibilityOffset⟩).append
    (.zeros _ 1)).append (.self ⟨_, e.bytes.drop (SymbolEntry.visibilityOffset + 1)⟩)
  exact hpieces

theorem madeOf_entries (offset index : Nat) (symbols : List Listed) :
    (⟨offset + index * SymbolEntry.byteSize, symbols.flatMap (·.entry.bytes)⟩ : Part).MadeOf
      ((symbols.zipIdx index).flatMap fun (listed, index) =>
        entryParts (offset + index * SymbolEntry.byteSize) listed.entry) := by
  induction symbols generalizing index with
  | nil => exact .zeros _ 0
  | cons s symbols ih =>
    refine (madeOf_entry _ s.entry).append ?_
    have hnext : offset + index * SymbolEntry.byteSize + s.entry.bytes.length =
        offset + (index + 1) * SymbolEntry.byteSize := by
      rw [SymbolEntry.length_bytes, Nat.succ_mul, Nat.add_assoc]
    rw [hnext]
    exact ih (index + 1)

theorem madeOfAll_symbols (s : SymbolSection) : MadeOfAll s.contents s.parts := by
  have hentries := madeOf_entries s.offset 1 s.symbols
  exact (MadeOfAll.of_madeOf ((Part.MadeOf.zeros s.offset SymbolEntry.byteSize).append
    hentries)).append (.self _)

/-- What is written of a symbol is its data; the zeros behind it are there already. -/
theorem madeOfAll_symbol (t : SymbolTable) (l : Layout) (id : SymbolId) :
    MadeOfAll (symbolPart? t l id).toList (symbolWrite? t l id).toList := by
  unfold symbolPart? symbolWrite?
  dsimp only
  cases (t.get id).value.bind l.fileOffset? with
  | none =>
    rw [Option.map_none, Option.map_none, ite_self]
    exact .self []
  | some offset =>
    split
    · rename_i hempty
      rw [isEmpty_iff.mp hempty]
      exact .of_madeOf (.zeros ..)
    · exact .of_madeOf ((Part.MadeOf.self ⟨offset, (t.get id).data⟩).append (.zeros ..))

theorem madeOfAll_stored (t : SymbolTable) (l : Layout) (ids : List SymbolId) :
    MadeOfAll (ids.filterMap (symbolPart? t l)) (ids.filterMap (symbolWrite? t l)) := by
  induction ids with
  | nil => exact .self []
  | cons id ids ih =>
    rw [filterMap_cons_toList, filterMap_cons_toList]
    exact (madeOfAll_symbol t l id).append ih

/-- What is written are the pieces of the parts of the file. -/
theorem madeOfAll_contents (p : Plan) (t : SymbolTable) (l : Layout) (id : Bytes) :
    MadeOfAll (p.contents t l id) (p.writes t l id) := by
  have hnote : MadeOfAll (p.noteParts id) (p.noteWrites id) := by
    unfold Plan.noteParts Plan.noteWrites
    cases p.front.note with
    | none => exact .self []
    | some note => exact .of_madeOf (madeOf_note ..)
  have hsymbols : MadeOfAll (p.symbols.toList.flatMap (·.contents))
      (p.symbols.toList.flatMap (·.parts)) := by
    cases p.symbols with
    | none => exact .self []
    | some s =>
      rw [Option.toList_some, flatMap_singleton, flatMap_singleton]
      exact madeOfAll_symbols s
  have htail : MadeOfAll p.tailContents p.tailParts :=
    ((MadeOfAll.self p.relocationParts).append hsymbols).append (.self _)
  have hall := (((MadeOfAll.self p.frontParts).append hnote).append
    (madeOfAll_stored t l (storedSymbols l))).append htail
  refine hall.of_perm ?_
  -- the note is written last
  unfold Plan.writes
  simp only [append_assoc]
  refine Perm.append_left _ ?_
  refine perm_append_comm.trans (.of_eq ?_)
  rw [append_assoc]

/-! ## The file -/

section

variable {t₀ t₁ t₂ : SymbolTable} {o : Options} {fills : List Fill} {c : Context}
  {hosts : List HostRelocation} {p : Plan}

theorem stop_le_of_mem_writes {id : Bytes}
    (hpacked : Packed 0 p.fileSize ((p.contents t₂ l id).map Part.span)) {w : Part}
    (hw : w ∈ p.writes t₂ l id) : w.span.stop ≤ p.fileSize := by
  obtain ⟨part, hpart, hpiece⟩ := (madeOfAll_contents p t₂ l id).piece w hw
  have hwithin := hpacked.within (mem_map_of_mem hpart)
  exact Nat.le_trans hpiece.stop_le hwithin.2.2

variable (hc : Computed t l t₁ t₀ fills) (hkeeps : Keeps bare t₁ t₂)
  (happlied : ∀ id, AppliedAt c t₁ t₂ hosts id)
include hc hkeeps happlied

theorem symbolWrite?_of_mem (hid : id ∈ storedSymbols l) :
    (t₂.get id).data = [] ∨ ∃ v offset, (t₂.get id).value = some v ∧
      l.fileOffset? v = some offset ∧ symbolWrite? t₂ l id = some ⟨offset, (t₂.get id).data⟩ := by
  by_cases hempty : (t₂.get id).data = []
  · exact .inl hempty
  · obtain ⟨s, hs, -, hmem⟩ := mem_storedSymbols.mp hid
    obtain ⟨-, hfits, -⟩ := contents_of_mem hc hkeeps happlied hs hmem
    have hpos := length_pos_iff.mpr hempty
    obtain ⟨v, hv, -, hoffset⟩ :=
      fileOffset?_of_stored hc hkeeps happlied hid (Nat.lt_of_lt_of_le hpos hfits)
    refine .inr ⟨v, _, hv, hoffset, ?_⟩
    rw [symbolWrite?, if_neg (by rwa [List.isEmpty_iff]), hv, Option.bind_some, hoffset]
    rfl

theorem exists_putSymbol (hid : id ∈ storedSymbols l) (hsize : image.size = n)
    (hfits : ∀ w ∈ symbolWrite? t₂ l id, w.span.stop ≤ n) :
    ∃ image', putSymbol t₂ l image id = .ok image' ∧ image'.size = n := by
  unfold putSymbol
  dsimp only
  rcases symbolWrite?_of_mem hc hkeeps happlied hid with hempty | ⟨v, offset, hv, hoffset, hw⟩
  · rw [hempty]
    exact ⟨image, rfl, hsize⟩
  · have hroom : offset + (t₂.get id).data.length ≤ image.size := hsize ▸ hfits _ hw
    split
    · exact ⟨image, rfl, hsize⟩
    · simp only [hv, hoffset, put?, if_pos hroom]
      exact ⟨_, rfl, (size_overwrite ..).trans hsize⟩

theorem exists_putSymbols {ids : List SymbolId} (hids : ∀ id ∈ ids, id ∈ storedSymbols l)
    (hsize : image.size = n) (hfits : ∀ w ∈ ids.filterMap (symbolWrite? t₂ l), w.span.stop ≤ n) :
    ∃ image', ids.foldlM (putSymbol t₂ l) image = .ok image' ∧ image'.size = n := by
  induction ids generalizing image with
  | nil => exact ⟨image, rfl, hsize⟩
  | cons id ids ih =>
    obtain ⟨hid, hids⟩ := forall_mem_cons.mp hids
    rw [filterMap_cons_toList] at hfits
    obtain ⟨hhead, htail⟩ := forall_mem_append.mp hfits
    obtain ⟨image₁, hput, hsize₁⟩ := exists_putSymbol hc hkeeps happlied hid hsize
      fun w hw => hhead w (Option.mem_toList.mpr hw)
    obtain ⟨image', hputs, hsize'⟩ := ih hids hsize₁ htail
    exact ⟨image', bind_eq_ok.mpr ⟨image₁, hput, hputs⟩, hsize'⟩

variable (hplan : Planned t₂ l o p)
include hplan

/-- **Contents.** The parts of a file follow each other from its start to its end. -/
theorem contents_packed {id : Bytes} (hid : ∀ size ∈ o.buildIdSize?, id.length = size) :
    Packed 0 p.fileSize ((p.contents t₂ l id).map Part.span) := by
  unfold Plan.contents
  rw [map_append, map_append]
  exact ((hplan.packed_front (hplan.count_segments (length_extents hc)) hid).append
    (packed_symbolParts hc hkeeps happlied)).append hplan.tail

/-- **Write.** Every planned file can be written. -/
theorem exists_write (huuid : uuid.length = 16) :
    ∃ image, p.write t₂ l o.buildId uuid = .ok image ∧ image.size = p.fileSize := by
  have hfits (image : Array UInt8) : ∀ w ∈ p.writes t₂ l (buildIdBytes o.buildId uuid image),
      w.span.stop ≤ p.fileSize := fun w hw =>
    stop_le_of_mem_writes (contents_packed hc hkeeps happlied hplan
      (length_buildIdBytes huuid image)) hw
  simp only [Plan.writes, forall_mem_append] at hfits
  -- only the build id depends on what has been written before
  obtain ⟨⟨⟨hfront, hstored⟩, htail⟩, -⟩ := hfits p.blank
  obtain ⟨image₁, hstart, hsize₁⟩ := exists_putAll Array.size_replicate hfront
  obtain ⟨image₂, hsymbols, hsize₂⟩ :=
    exists_putSymbols hc hkeeps happlied (fun _ hid => hid) hsize₁ hstored
  obtain ⟨image₃, hput, hsize₃⟩ := exists_putAll hsize₂ htail
  have hrest : ∃ image₄ image, p.complete image₂ = .ok image₄ ∧
      p.identify (buildIdBytes o.buildId uuid image₄) image₄ = .ok image ∧
      image.size = p.fileSize := by
    simp only [Plan.complete, Plan.identify, hput]
    cases hnote : p.front.note with
    | none => exact ⟨image₃, image₃, rfl, rfl, hsize₃⟩
    | some note =>
      have hnotes (image : Array UInt8) :=
        (hfits image).2
      simp only [Plan.noteWrites, hnote, Option.toList_some, flatMap_singleton,
        forall_mem_cons] at hnotes
      obtain ⟨image₄, hheader, hsize₄⟩ := exists_put hsize₃ (hnotes image₃).1
      obtain ⟨image, hid, hsize⟩ := exists_put hsize₄ (hnotes image₄).2.1
      exact ⟨image₄, image, hheader, hid, hsize⟩
  obtain ⟨image₄, image, hcomplete, hidentify, hsize⟩ := hrest
  exact ⟨image, bind_eq_ok.mpr ⟨image₁, hstart, bind_eq_ok.mpr ⟨image₂, hsymbols,
    bind_eq_ok.mpr ⟨image₄, hcomplete, hidentify⟩⟩⟩, hsize⟩

/-- **Holds.** A written file holds all of its parts. -/
theorem holds_of_write (huuid : uuid.length = 16)
    (hwrite : p.write t₂ l o.buildId uuid = .ok image) :
    ∃ id : Bytes, (∀ size ∈ o.buildIdSize?, id.length = size) ∧ image.size = p.fileSize ∧
      Packed 0 p.fileSize ((p.contents t₂ l id).map Part.span) ∧
      ∀ part ∈ p.contents t₂ l id, Holds image part := by
  obtain ⟨image₃, hput⟩ := write_ok hwrite
  have hid := length_buildIdBytes (o := o) huuid image₃
  have hpacked := contents_packed hc hkeeps happlied hplan hid
  refine ⟨_, hid, ?_, hpacked, holds_of_putAll hput (madeOfAll_contents ..) hpacked⟩
  rw [(putAll_size hput).1]
  exact Array.size_replicate

end

end ArmLink.Image
