import ArmLink.Proofs.Layout.Located
import ArmLink.Proofs.Link.Calls
import ArmLink.Proofs.Link.Tables

/-!
# Patching read-only memory

Before the loader patches memory that may not be written it has to be told, by an entry of the
dynamic section. The entry is there if a word of a symbol of code is patched. Words of read-only
data are patched without it.
-/

namespace ArmLink

open SymbolTable DynamicTables Layout Resolve
open List hiding all

variable {o : Options} {objects : List Object} {kept u t : SymbolTable} {s s' : Lowering}
  {placed : Placed} {d : DynamicTables} {id : SymbolId} {path : Option Nat}
  {asks : List (SymbolId × Nat)} {k : Nat} {x : SymbolId × Nat}

/-! ## The entries of the dynamic section -/

namespace DynamicTables

def Entry.tag : Entry → Nat
  | number tag _ | address tag _ | size tag _ => tag

theorem Entry.bytes_eq (e : Entry) :
    ∃ value, e.bytes = Bytes.ofWord (.ofNat 32 e.tag) ++ value := by
  cases e <;> exact ⟨_, rfl⟩

/-- The tags stand in the dynamic section, eight bytes apart. -/
theorem Entry.slice?_flatMap {entries : List Entry} :
    Bytes.slice? (entries.flatMap Entry.bytes) (8 * k) 4 =
      entries[k]?.map fun e => Bytes.ofWord (.ofNat 32 e.tag) := by
  induction entries generalizing k with
  | nil => rfl
  | cons e entries ih =>
    rw [flatMap_cons]
    cases k with
    | zero =>
      obtain ⟨value, hvalue⟩ := e.bytes_eq
      rw [hvalue, append_assoc]
      exact Bytes.slice?_append_self [] (Bytes.ofWord (.ofNat 32 e.tag)) _
    | succ k =>
      have hnext : 8 * (k + 1) = e.bytes.length + 8 * k := by
        rw [e.length_bytes]
        omega
      rw [hnext, Bytes.slice?_append_right, ih]
      rfl

/-- The tag of the entry that announces patches of read-only memory. -/
def textRelTag : Nat := 22

theorem textRelTag_mem_iff (d : DynamicTables) (path : Option Nat) :
    textRelTag ∈ (d.entries path).map (·.tag % 2 ^ 32) ↔ d.textRel = true := by
  cases path <;> cases htextRel : d.textRel <;> simp [entries, Entry.tag, textRelTag, htextRel]

end DynamicTables

/-! ## Kinds and segments -/

namespace Layout

theorem segmentOf_promoted {s : Symbol} : segmentOf (promoted s).kind = segmentOf s.kind := by
  rcases kind_promoted s with hkind | ⟨hs, hkind⟩ | ⟨hs, hkind⟩
  · rw [hkind]
  · rw [hkind, hs]
    rfl
  · rw [hkind, hs]
    rfl

theorem segmentOf_of_isWritable {kind : SymbolKind} (h : kind.isWritable = true) :
    segmentOf kind = .data := by
  revert h
  cases kind <;> decide

theorem segment_of_not_writable {segment : Elf.Segment} (h : segment ∈ Elf.Segment.loads)
    (hflags : segment.flags &&& Elf.SegmentFlags.writable = 0) :
    segment = .text ∨ segment = .rodata := by
  revert h hflags
  cases segment <;> decide

end Layout

namespace Link

/-- The dynamic section announces that read-only memory is patched. -/
def Announces (data : Bytes) : Prop := ∃ k, data.wordAt? (8 * k) = some textRelTag

theorem le_of_wordAt? {data : Bytes} {n : Nat} (h : data.wordAt? (8 * k) = some n) :
    8 * k + 4 ≤ data.length := by
  obtain ⟨slice, hslice, -⟩ := Option.map_eq_some_iff.mp h
  exact (Bytes.slice?_eq_some.mp hslice).1

instance (data : Bytes) : Decidable (Announces data) :=
  decidable_of_iff (∃ k < data.length, data.wordAt? (8 * k) = some textRelTag) <| by
    refine exists_congr fun k => and_iff_right_of_imp fun h => ?_
    have hle := le_of_wordAt? h
    omega

/-- The entries of the table `rel` make the loader patch these words, given by their symbols and
offsets. -/
structure Patches (t : SymbolTable) (rel : SymbolId) (words : List (SymbolId × Nat)) : Prop where
  length : (t.get rel).data.length = 8 * words.length
  address : ∀ k x, words[k]? = some x → ∃ base, (t.get x.1).value = some base ∧
    (t.get rel).data.wordAt? (8 * k) = some ((base + x.2) % 2 ^ 32)

namespace Linked

variable (h : Linked o kept placed s s' u t d)

include h

theorem wordAt?_dynamic (hdata : (u.get d.dynamic).data = (d.entries path).flatMap Entry.bytes)
    (k : Nat) : (placed.table.get d.dynamic).data.wordAt? (8 * k) =
      (d.entries path)[k]?.map (·.tag % 2 ^ 32) := by
  rw [Bytes.wordAt?, h.slice_eq (by simp [all]) fun r hr => h.tabled.tags r hr k, hdata,
    Entry.slice?_flatMap, Option.map_map]
  refine congrArg (Option.map · _) (funext fun e => ?_)
  rw [Function.comp_apply, Bytes.toNat_ofWord, BitVec.toNat_ofNat]

/-- **Announcements.** The dynamic section announces patches of read-only memory if it is to. -/
theorem announces_iff : Announces (placed.table.get d.dynamic).data ↔ d.textRel = true := by
  obtain ⟨path, hsound⟩ := h.tabled.sound
  rw [← textRelTag_mem_iff d path, mem_iff_getElem?, Announces]
  simp only [h.wordAt?_dynamic hsound.dynamic, getElem?_map]

/-! ## The words -/

/-- Layout changes the kind of a symbol that has a place in view of its contents, and not its size.
-/
theorem kind_size_eq (hsite : isSite (u.get id) = true) :
    (t.get id).kind = (promoted (u.get id)).kind ∧ (t.get id).size = (u.get id).size := by
  obtain ⟨t₀, fills, hcomputed⟩ := h.laidOut
  have hspecial : (t₀.get id).special = false := by
    rw [hcomputed.promoted id, promoted_eq]
    exact h.special_of_site hsite
  have hordinary := hcomputed.finished.ordinary id hspecial
  rw [hcomputed.promoted id] at hordinary
  refine ⟨by rw [hordinary], ?_⟩
  rw [hordinary, promoted_eq]

theorem segmentOf_eq (hsite : isSite (u.get id) = true) :
    segmentOf (placed.table.get id).kind = segmentOf (u.get id).kind := by
  have hbare := (h.bare.read Symbol.kind fun _ => rfl).2 id
  rw [hbare, (h.kind_size_eq hsite).1, segmentOf_promoted]

variable (hasks : Asks (Patchable o.isRelocatable d u) d u asks)
include hasks

theorem patches : Patches placed.table d.rel asks := by
  have hrel : d.rel ∈ d.all := by simp [all]
  refine ⟨(h.length_table hrel).trans hasks.length, fun k x hk => ?_⟩
  have hmem : relEntry k x ∈ (u.get d.rel).relocations := by
    rw [hasks.relocations]
    refine mem_of_getElem? (i := k) ?_
    rw [getElem?_mapIdx, hk]
    rfl
  obtain ⟨base, hbase, hslice⟩ := h.word hrel hmem
  refine ⟨base, hbase, ?_⟩
  rw [Bytes.wordAt?_eq_some hslice, narrow_ofNat, ← BitVec.ofNat_add, BitVec.toNat_ofNat]

/-- A word that the loader is asked for lies within a symbol that has a place and contents. -/
theorem asked (hx : x ∈ asks) : isSite (u.get x.1) = true ∧ x.2 + 4 ≤ (t.get x.1).size ∧
      ¬ ((u.get x.1).data = [] ∧ (u.get x.1).relocations = []) ∧
      (o.isRelocatable = false → (u.get x.1).kind.isWritable = true) := by
  obtain ⟨path, hsound⟩ := h.tabled.sound
  rcases hasks.each x hx with ⟨hgot, hle⟩ | hpatchable
  · -- a slot of the global offset table
    have hmem : d.got ∈ d.all := by simp [all]
    have hready := h.tabled.reached.ready d.got hmem
    simp only [isReady, Bool.and_eq_true] at hready
    have hsite : isSite (u.get d.got) = true := Bool.and_eq_true_iff.mpr hready.1
    rw [hgot]
    refine ⟨hsite, ?_, fun hempty => ?_, fun _ => ?_⟩
    · rw [(h.kind_size_eq hsite).2, (h.filled hmem).size]
      exact hle
    · rw [hempty.1] at hle
      cases hle
    · rw [hsound.kind (_, d.got) (mem_of_getElem? (i := 3) rfl)]
      rfl
  · -- a word that a relocation fills
    obtain ⟨r, hr, hoffset, hsize⟩ := hpatchable.word
    obtain ⟨done, hdone, -⟩ := (h.applied x.1).site (h.site hpatchable.site)
    have hmem : r ∈ done.map (·.1) := by
      rw [hdone.relocations, h.relocations_eq]
      exact hr
    obtain ⟨y, hy, rfl⟩ := mem_map.mp hmem
    have hstop := stop_le_of_settle (hdone.settled y hy)
    refine ⟨hpatchable.site, ?_, fun hempty => ?_, hpatchable.still⟩
    · rw [← hoffset, ← hsize]
      exact hstop
    · rw [hempty.2] at hr
      cases hr

/-- **Located.** A word that the loader is asked for lies in the segment of its symbol's kind, if
the symbol lies within no other. -/
theorem located (hx : x ∈ asks) (houter : (placed.table.get x.1).outer = none) :
    ∃ e ∈ placed.layout.extents, e.segment = segmentOf (u.get x.1).kind ∧
      ∃ base, (placed.table.get x.1).value = some base ∧ e.Contains (base + x.2) ∧
        base + x.2 < 2 ^ 32 := by
  obtain ⟨hsite, hsize, hcontents, -⟩ := h.asked hasks hx
  obtain ⟨t₀, fills, hcomputed⟩ := h.laidOut
  have hcandidate : isCandidate (u.get x.1) = true := by
    have houter' : (placed.table.get x.1).outer = (u.get x.1).outer :=
      ((h.bare.map Symbol.outer).2 x.1).trans ((h.untouched.map Symbol.outer).2 x.1)
    rw [isCandidate, (Bool.and_eq_true_iff.mp hsite).1, h.special_of_site hsite, ← houter', houter]
    rfl
  have htls : (t.get x.1).kind ≠ .tlsBss := fun hkind =>
    hcontents (no_contents_of_promotedKind (hcomputed.kind_of_isCandidate hcandidate)
      (by rw [hkind]; rfl))
  obtain ⟨e, he, hsegment, base, hbase, hstart, hstop⟩ :=
    hcomputed.located hcandidate (Bool.and_eq_true_iff.mp (h.site hsite)).2 htls
  have hkind := (h.bare.read Symbol.kind fun _ => rfl).2 x.1
  refine ⟨e, he, ?_, base, (h.value_eq x.1).trans hbase, ⟨by omega, by omega⟩, ?_⟩
  · rw [hsegment, ← hkind, h.segmentOf_eq hsite]
  · have hbound := (hcomputed.arranged.holds e he).stop_le
    omega

end Linked

/-- **Patches of read-only memory.** They are announced if and only if a word of code is patched. So
the announcement is there if an address that is patched lies in a segment that may not be written,
unless that is the segment of read-only data in an output that may be loaded anywhere, or the word
belongs to a symbol within another one. -/
theorem textRel_announced (h : prepare o objects = .ok placed) (hneeds : o.needsDynamic = true) :
    ∃ rel dynamic words, placed.table.find? Elf.SectionName.rel 0 = some rel ∧
      placed.table.find? Elf.SectionName.dynamic 0 = some dynamic ∧
      Patches placed.table rel words ∧
      (Announces (placed.table.get dynamic).data ↔
        ∃ x ∈ words, (placed.table.get x.1).kind.isText = true) ∧
      ∀ k address e, (placed.table.get rel).data.wordAt? (8 * k) = some address →
        e ∈ placed.layout.extents → e.Contains address →
        e.segment.flags &&& Elf.SegmentFlags.writable = 0 →
          Announces (placed.table.get dynamic).data ∨
          o.isRelocatable = true ∧ e.segment = .rodata ∨
          ∃ x, words[k]? = some x ∧ (placed.table.get x.1).outer ≠ none := by
  obtain ⟨kept, s, s', u, t, d, hlinked⟩ := linked_of_prepare h hneeds
  obtain ⟨path, hsound⟩ := hlinked.tabled.sound
  obtain ⟨words, hasks⟩ := hsound.asks
  have hpatches := hlinked.patches hasks
  have hannounced : Announces (placed.table.get d.dynamic).data ↔
      ∃ x ∈ words, (placed.table.get x.1).kind.isText = true := by
    rw [hlinked.announces_iff, hasks.textRel]
    refine exists_congr fun x => and_congr_right fun hx => ?_
    rw [← segmentOf_eq_text, ← segmentOf_eq_text, hlinked.segmentOf_eq (hlinked.asked hasks hx).1]
  refine ⟨d.rel, d.dynamic, words, hlinked.found (List.mem_of_getElem? (i := 2) rfl),
    hlinked.found (List.mem_of_getElem? (i := 8) rfl), hpatches, hannounced, ?_⟩
  intro k address e hword he hin hflags
  -- the entry belongs to a word
  have hk : k < words.length := by
    have hle := le_of_wordAt? hword
    rw [hpatches.length] at hle
    omega
  have hx : words[k]? = some words[k] := List.getElem?_eq_getElem hk
  have hmem : words[k] ∈ words := List.getElem_mem hk
  generalize words[k] = x at hx hmem
  cases houter : (placed.table.get x.1).outer with
  | some outer => exact .inr (.inr ⟨x, hx, by simp [houter]⟩)
  | none =>
    -- the segment is that of the symbol
    obtain ⟨e', he', hsegment, base, hbase, hin', hlt⟩ := hlinked.located hasks hmem houter
    obtain ⟨base', hbase', hword'⟩ := hpatches.address k x hx
    cases hbase.symm.trans hbase'
    rw [hword, Nat.mod_eq_of_lt hlt] at hword'
    cases hword'
    obtain ⟨t₀, fills, hcomputed⟩ := hlinked.laidOut
    obtain rfl := hcomputed.extent_unique he he' hin hin'
    obtain ⟨hsite, -, -, hstill⟩ := hlinked.asked hasks hmem
    have hload : e.segment ∈ Elf.Segment.loads :=
      hcomputed.arranged.segments ▸ List.mem_map_of_mem he
    rcases segment_of_not_writable hload hflags with htext | hrodata
    · refine .inl (hannounced.mpr ⟨x, hmem, ?_⟩)
      rw [← segmentOf_eq_text, hlinked.segmentOf_eq hsite, ← hsegment, htext]
    · refine .inr (.inl ⟨?_, hrodata⟩)
      cases hmoves : o.isRelocatable with
      | true => rfl
      | false =>
        rw [hsegment, segmentOf_of_isWritable (hstill hmoves)] at hrodata
        cases hrodata

/-- A program with a table that may not be written and holds the address of its code. The code
refers to the table in a given way. -/
def tableSample (kind : Relocation.Kind) : List Object :=
  [{ path := "a"
     symbols :=
       [programCode [1, 2, 3, 4, 5, 6, 7, 8] [.pending 4 4 kind (some "table") 0],
        programTable "table" 4 [1, 2, 3, 4] [.pending 0 4 .absolute (some "main") 0]]
     imports := [] }]

/-- Options of a program that may be loaded anywhere. -/
def relocatableOptions : Options where
  outputKind := .relocatable
  entry := .symbol "main"

theorem textRel_announced_sample : ∃ placed e,
    prepare relocatableOptions (tableSample .absolute) = .ok placed ∧
      relocatableOptions.needsDynamic = true ∧
      (placed.table.get 23).data.wordAt? (8 * 0) = some 3076 ∧ e ∈ placed.layout.extents ∧
      e.Contains 3076 ∧ e.segment.flags &&& Elf.SegmentFlags.writable = 0 ∧
      Announces (placed.table.get 29).data := by
  obtain ⟨placed, hplaced, hrel, hdynamic, hword, he, houter⟩ :
      ∃ placed, prepare relocatableOptions (tableSample .absolute) = .ok placed ∧
        placed.table.find? Elf.SectionName.rel 0 = some 23 ∧
        placed.table.find? Elf.SectionName.dynamic 0 = some 29 ∧
        (placed.table.get 23).data.wordAt? (8 * 0) = some 3076 ∧
        ⟨.text, 0, 3100, 0, 3100⟩ ∈ placed.layout.extents ∧
        ∀ s ∈ placed.table.symbols.toList, s.outer = none := by
    decide +kernel
  have hin : Extent.Contains ⟨.text, 0, 3100, 0, 3100⟩ 3076 := by decide
  refine ⟨placed, _, hplaced, rfl, hword, he, hin, rfl, ?_⟩
  obtain ⟨rel, dynamic, words, hrel', hdynamic', -, -, hannounced⟩ :=
    textRel_announced hplaced rfl
  cases hrel.symm.trans hrel'
  cases hdynamic.symm.trans hdynamic'
  rcases hannounced 0 _ _ hword he hin rfl with hannounced | ⟨-, hrodata⟩ | ⟨x, -, hx⟩
  · exact hannounced
  · cases hrodata
  · exact absurd (forall_get (P := fun s => s.outer = none) houter rfl x.1) hx

/-- A link patches memory that may not be written, and does not announce it. -/
def PatchesSilently (o : Options) (objects : List Object) : Prop :=
  ∃ placed rel dynamic k address e, prepare o objects = .ok placed ∧ o.needsDynamic = true ∧
    placed.table.find? Elf.SectionName.rel 0 = some rel ∧
    placed.table.find? Elf.SectionName.dynamic 0 = some dynamic ∧
    (placed.table.get rel).data.wordAt? (8 * k) = some address ∧ e ∈ placed.layout.extents ∧
    e.Contains address ∧ e.segment.flags &&& Elf.SegmentFlags.writable = 0 ∧
    ¬ Announces (placed.table.get dynamic).data

theorem PatchesSilently.of_run (rel dynamic : SymbolId) (k : Nat) {address : Nat} {e : Extent}
    (hneeds : o.needsDynamic = true) (hin : e.Contains address)
    (hflags : e.segment.flags &&& Elf.SegmentFlags.writable = 0)
    (hrun : ∃ placed, prepare o objects = .ok placed ∧
      placed.table.find? Elf.SectionName.rel 0 = some rel ∧
      placed.table.find? Elf.SectionName.dynamic 0 = some dynamic ∧
      (placed.table.get rel).data.wordAt? (8 * k) = some address ∧ e ∈ placed.layout.extents ∧
      ¬ Announces (placed.table.get dynamic).data) : PatchesSilently o objects := by
  obtain ⟨placed, hplaced, hrel, hdynamic, hword, he, hannounced⟩ := hrun
  exact ⟨placed, rel, dynamic, k, address, e, hplaced, hneeds, hrel, hdynamic, hword, he, hin,
    hflags, hannounced⟩

/-- A program with data in the midst of its code. -/
def partSample : List Object :=
  [{ path := "a"
     symbols :=
       [programCode (Bytes.zeros 12) [],
        { name := "part", kind := .data, size := 8, outer := some ("main", 4) }]
     imports := [] }]

/-- Options that make these data a string variable, which holds an address. -/
def partOptions : Options := { relocatableOptions with stringVariables := [("part", "x")] }

/-- **Patches that are not announced.** The loader is asked to patch a table that may not be
written, or data in the midst of code, and nothing announces it. -/
theorem patches_unannounced : PatchesSilently relocatableOptions (tableSample .pcRelative) ∧
    PatchesSilently partOptions partSample := by
  have hrodata : Extent.Contains ⟨.rodata, 4096, 52, 4096, 52⟩ 4096 := by decide
  have htext : Extent.Contains ⟨.text, 0, 3104, 0, 3104⟩ 3076 := by decide
  constructor
  · exact .of_run 23 29 0 rfl hrodata rfl (by decide +kernel)
  · exact .of_run 24 30 0 rfl htext rfl (by decide +kernel)

end Link

end ArmLink
