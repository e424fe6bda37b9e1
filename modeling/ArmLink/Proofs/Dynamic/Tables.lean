import ArmLink.Dynamic.Finish
import ArmLink.Proofs.SymbolTable
import Mathlib.Logic.Relation

/-!
# The tables of the dynamic loader grow

Making an entry in the tables of the dynamic loader puts bytes at the end of some tables and notes
the entry at its symbol. Nothing else changes, and what is noted stays. All operations are gone
through once, as changes of five kinds; whatever such changes preserve is then preserved by every
operation.
-/

namespace ArmLink.DynamicTables

open SymbolTable Relation List
open Relocation (Kind)

variable {d d' d'' : DynamicTables} {t t' t'' : SymbolTable} {id owner a target : SymbolId}
  {owners owners' : List SymbolId} {P : SymbolId → Prop} {start s s' : DynamicTables × SymbolTable}
  {f : Symbol → Symbol} {offset : Nat} {bytes : Bytes} {kind : Kind} {addend : Word64}

/-- The tables other than that of the stubs. -/
def others (d : DynamicTables) : List SymbolId :=
  [d.dynSym, d.dynStr, d.hash, d.rel, d.relPlt, d.got, d.gotPlt, d.dynamic]

theorem mem_all_of_mem_others (h : id ∈ d.others) : id ∈ d.all := by
  simp only [others, all, mem_cons, not_mem_nil, or_false] at h ⊢
  grind

/-- The tables at different places of the list are not the same. -/
theorem ne_of_all (h : d.all.Nodup) (i j : Nat) {b : SymbolId} (hi : d.all[i]? = some a)
    (hj : d.all[j]? = some b) (hij : i ≠ j) : a ≠ b := by
  rintro rfl
  exact hij ((List.getElem?_inj (List.getElem?_eq_some_iff.mp hi).1 h).mp (hi.trans hj.symm))

theorem not_mem_of_all (h : d.all.Nodup) (i : Nat) {ids : List SymbolId}
    (hi : d.all[i]? = some a) (hids : ids ⊆ d.all.eraseIdx i) : a ∉ ids := by
  intro hmem
  obtain ⟨j, hj, hja⟩ := mem_eraseIdx_iff_getElem?.mp (hids hmem)
  exact ne_of_all h j i hja hi hj rfl

theorem plt_mem_all (d : DynamicTables) : d.plt ∈ d.all := by simp [all]

theorem ne_plt_of_mem_others (hnodup : d.all.Nodup) (h : id ∈ d.others) : id ≠ d.plt := by
  simp only [others, all, nodup_cons, mem_cons, not_mem_nil, or_false] at h hnodup
  grind

theorem plt_eq_of_all (h : d'.all = d.all) : d'.plt = d.plt := by
  simp only [all, cons.injEq] at h
  exact h.2.2.2.2.2.2.1

/-! ## More at the end -/

/-- A symbol without its entries in tables and without its contents. -/
def shell (s : Symbol) : Symbol :=
  { s with
    data := [], size := 0, relocations := []
    dynamicIndex := none, gotOffset := none, pltOffset := none, gotPltOffset := none }

def contents (s : Symbol) : Bytes × Nat × List (Relocation SymbolId) :=
  (s.data, s.size, s.relocations)

/-- What tables hold for a symbol. -/
def entriesOf (s : Symbol) : Option Nat × Option Nat × Option Nat × Option Nat :=
  (s.dynamicIndex, s.pltOffset, s.gotPltOffset, s.gotOffset)

@[simp] theorem shell_append {s : Symbol} : shell (s.append bytes) = shell s := rfl

@[simp] theorem shell_appendWord (s : Symbol) (w : Word) : shell (s.appendWord w) = shell s := rfl

@[simp] theorem shell_appendPatched {s : Symbol} :
    shell (s.appendPatched kind target addend) = shell s := rfl

@[simp] theorem entriesOf_append {s : Symbol} : entriesOf (s.append bytes) = entriesOf s := rfl

@[simp] theorem entriesOf_appendWord (s : Symbol) (w : Word) :
    entriesOf (s.appendWord w) = entriesOf s := rfl

@[simp] theorem entriesOf_appendPatched {s : Symbol} :
    entriesOf (s.appendPatched kind target addend) = entriesOf s := rfl

theorem length_data_appendWord {s : Symbol} {w : Word} :
    (s.appendWord w).data.length = s.data.length + 4 := by
  show (s.data ++ Bytes.ofWord w).length = _
  rw [length_append, Bytes.length_ofWord]

@[simp] theorem length_data_appendPatched {s : Symbol} :
    (s.appendPatched kind target addend).data.length = s.data.length + 4 := by
  show (s.data ++ Bytes.ofWord 0).length = _
  rw [length_append, Bytes.length_ofWord]

theorem size_appendPatched {s : Symbol} : (s.appendPatched kind target addend).size =
      (s.appendPatched kind target addend).data.length :=
  length_append.symm

/-- A relocation has one of the linker's own kinds, and a target with the property. -/
def Leads (P : SymbolId → Prop) (r : Relocation SymbolId) : Prop :=
  ∃ kind target addend, r.outcome = .pending kind (some target) addend ∧
    (∀ type, kind ≠ .elf type) ∧ P target

theorem absolute_ne_elf (type : Nat) : Kind.absolute ≠ .elf type := by simp

/-- Bytes were put at the end of a symbol, and relocations that patch only those, one after the
other, and that lead to symbols with the property. If the size was that of the bytes, it still is.
-/
def Grown (P : SymbolId → Prop) (s s' : Symbol) : Prop :=
  ∃ bytes patches size,
    s' = { s with data := s.data ++ bytes, size, relocations := s.relocations ++ patches } ∧
    (s.size = s.data.length → size = s.data.length + bytes.length) ∧
    patches.Pairwise (fun r r' => r.stop ≤ r'.offset) ∧
    ∀ r ∈ patches,
      s.data.length ≤ r.offset ∧ r.stop ≤ s.data.length + bytes.length ∧ Leads P r

namespace Grown

variable {s s' s'' : Symbol}

theorem refl (s : Symbol) : Grown P s s :=
  ⟨[], [], s.size, by simp, fun h => h, .nil, nofun⟩

theorem trans (h : Grown P s s') (h' : Grown P s' s'') : Grown P s s'' := by
  obtain ⟨bytes, patches, size, rfl, hsize, hsorted, hpatches⟩ := h
  obtain ⟨bytes', patches', size', rfl, hsize', hsorted', hpatches'⟩ := h'
  simp only [length_append] at hsize' hpatches'
  refine ⟨bytes ++ bytes', patches ++ patches', size', by simp, fun heq => ?_,
    pairwise_append.mpr ⟨hsorted, hsorted', fun r hr r' hr' => ?_⟩, fun r hr => ?_⟩
  · rw [hsize' (hsize heq), length_append, Nat.add_assoc]
  · exact Nat.le_trans (hpatches r hr).2.1 (hpatches' r' hr').1
  rw [length_append]
  rcases mem_append.mp hr with hr | hr
  · obtain ⟨hle, hstop, hleads⟩ := hpatches r hr
    exact ⟨hle, by omega, hleads⟩
  · obtain ⟨hle, hstop, hleads⟩ := hpatches' r hr
    exact ⟨by omega, by omega, hleads⟩

theorem kept (h : Grown P s s') : (shell s', entriesOf s') = (shell s, entriesOf s) := by
  obtain ⟨bytes, patches, size, rfl, -⟩ := h
  rfl

theorem size_eq (h : Grown P s s') (hs : s.size = s.data.length) : s'.size = s'.data.length := by
  obtain ⟨bytes, patches, size, rfl, hsize, -⟩ := h
  exact (hsize hs).trans length_append.symm

variable (s)

theorem patch (bytes : Bytes) (patch? : Option (Relocation SymbolId)) (hpatch : ∀ r ∈ patch?,
      s.data.length ≤ r.offset ∧ r.stop ≤ s.data.length + bytes.length ∧ Leads P r) :
    Grown P s { s with
      data := s.data ++ bytes
      size := s.data.length + bytes.length
      relocations := s.relocations ++ patch?.toList } := by
  refine ⟨bytes, patch?.toList, _, rfl, fun _ => rfl, ?_, fun r hr => ?_⟩
  · cases patch? with
    | none => exact .nil
    | some r => exact pairwise_singleton ..
  · exact hpatch r (Option.mem_toList.mp hr)

theorem append (bytes : Bytes) : Grown P s (s.append bytes) := by
  have h := patch (P := P) s bytes none nofun
  rw [Option.toList_none, append_nil] at h
  exact h

theorem appendWord (w : Word) : Grown P s (s.appendWord w) := append s _

theorem appendPatched (kind : Kind) (hkind : ∀ type, kind ≠ .elf type) (htarget : P target)
    (addend : Word64) : Grown P s (s.appendPatched kind target addend) := by
  refine patch s (Bytes.ofWord 0) (some _) ?_
  rintro r ⟨⟩
  exact ⟨Nat.le_refl _, Nat.le_refl _, kind, target, addend, rfl, hkind, htarget⟩

theorem appendWords (words : List Word) (s : Symbol) :
    Grown P s (words.foldl Symbol.appendWord s) :=
  foldl_induction (P := Grown P s) (.refl s) fun s' w _ hs' => hs'.trans (.appendWord s' w)

theorem appendEntry (entry : Symbol) {s : Symbol} (hid : s.isImport = false → P id)
    (offset : Nat) : Grown P entry (DynamicTables.appendEntry entry id s offset) := by
  have hname := appendWord (P := P) entry (.ofNat 32 offset)
  simp only [DynamicTables.appendEntry]
  cases himport : s.isImport with
  | true =>
    exact (((hname.trans (.appendWord _ 0)).trans (.appendWord _ 0)).trans (.append _ _)).trans
      (.append _ _)
  | false =>
    -- the relocation of the section's index patches the bytes that are put behind it
    have hlast (front : Symbol) : Grown P front { front.append [0, 0] with
        relocations := front.relocations ++
          [.pending front.data.length 2 .sectionIndex (some id) 0] } := by
      refine .patch front [0, 0] (some _) ?_
      rintro r ⟨⟩
      exact ⟨Nat.le_refl _, Nat.le_refl _, .sectionIndex, id, 0, rfl, nofun, hid himport⟩
    exact (((hname.trans (.appendPatched _ .absolute absolute_ne_elf (hid himport) 0)).trans
      (.appendWord _ 0)).trans (.append _ _)).trans (hlast _)

theorem appendRel (howner : P owner) (offset index type : Nat) :
    Grown P s ((s.appendPatched .absolute owner (.ofNat 64 offset)).appendWord
      (Elf.RelocationType.info (.ofNat 32 index) (.ofNat 32 type))) :=
  (appendPatched s .absolute absolute_ne_elf howner _).trans (.appendWord _ _)

/-- Entries of the dynamic section refer to the tables that they are about. -/
theorem entries {entries : List Entry}
    (h : ∀ e ∈ entries, ∀ tag table, e = .address tag table ∨ e = .size tag table → P table) :
    Grown P s (entries.foldl Entry.append s) := by
  refine foldl_induction (P := Grown P s) (.refl s) fun s' e he hs' => hs'.trans ?_
  cases e with
  | number tag value => exact (appendWord ..).trans (appendWord ..)
  | address tag table =>
    exact (appendWord ..).trans
      (appendPatched _ .absolute absolute_ne_elf (h _ he tag table (.inl rfl)) 0)
  | size tag table =>
    exact (appendWord ..).trans (appendPatched _ .size nofun (h _ he tag table (.inr rfl)) 0)

variable {s}

end Grown

theorem kept_appendEntry (entry : Symbol) (id : SymbolId) (s : Symbol) (offset : Nat) :
    (shell (appendEntry entry id s offset), entriesOf (appendEntry entry id s offset)) =
      (shell entry, entriesOf entry) :=
  (Grown.appendEntry (P := fun _ => True) entry (fun _ => trivial) offset).kept

/-! ## Changes -/

/-- The stubs start at whole words. -/
structure InWords (d : DynamicTables) (t : SymbolTable) : Prop where
  length : 4 ∣ (t.get d.plt).data.length
  size : (t.get d.plt).size = (t.get d.plt).data.length
  stub : ∀ id stub, (t.get id).pltOffset = some stub → 4 ∣ stub

theorem InWords.modify (h : InWords d t) (hplt : id = d.plt → 4 ∣ (f (t.get id)).data.length ∧
      (f (t.get id)).size = (f (t.get id)).data.length)
    (hstub : ∀ stub, (f (t.get id)).pltOffset = some stub → 4 ∣ stub) :
    InWords d (t.modify id f) := by
  have htable : 4 ∣ ((t.modify id f).get d.plt).data.length ∧
      ((t.modify id f).get d.plt).size = ((t.modify id f).get d.plt).data.length := by
    rw [get_modify]
    split
    · rename_i heq
      exact hplt heq.1.symm
    · exact ⟨h.length, h.size⟩
  refine ⟨htable.1, htable.2, fun j stub => ?_⟩
  rw [get_modify]
  split
  · exact hstub stub
  · exact h.stub j stub

theorem InWords.note (h : InWords d t) (hdata : (f (t.get id)).data = (t.get id).data)
    (hsize : (f (t.get id)).size = (t.get id).size)
    (hstub : ∀ stub, (f (t.get id)).pltOffset = some stub → 4 ∣ stub) :
    InWords d (t.modify id f) := by
  refine h.modify (fun heq => ?_) hstub
  rw [hdata, hsize, heq]
  exact ⟨h.length, h.size⟩

/-- The relocation by which the slot of a symbol of the output gets the symbol's address. -/
def slotWord (id : SymbolId) (slot : Nat) : Relocation SymbolId :=
  .pending slot 4 .absolute (some id) 0

/-- What operations do to tables and symbols at a time, from `start` on. What they put at the end of
tables leads to symbols with the property. -/
inductive Growth (P : SymbolId → Prop) (start : DynamicTables × SymbolTable) :
    DynamicTables × SymbolTable → DynamicTables × SymbolTable → Prop
  /-- something other than the number of dynamic symbols is noted about the tables, such as where a
  new name stands -/
  | record {d d' : DynamicTables} {t : SymbolTable} (hall : d'.all = d.all)
      (hcount : d'.count = d.count)
      (hnames : d.dynStr < t.size → d'.nameOffsets = d.nameOffsets ∨ ∃ name offset,
        d.nameOffsets.lookup name = none ∧ d'.nameOffsets = (name, offset) :: d.nameOffsets ∧
        Bytes.ofString name ++ [0] <+: (t.get d.dynStr).data.drop offset := by
          exact fun _ => .inl rfl) :
      Growth P start (d, t) (d', t)
  /-- something is put at the end of a table, whole words at that of the stubs -/
  | extend {d : DynamicTables} {t : SymbolTable} {f : Symbol → Symbol} (id : SymbolId)
      (hid : id ∈ d.all) (hf : ∀ s, Grown P s (f s))
      (hwords : d.all.Nodup → id = d.plt → ∀ s, 4 ∣ s.data.length → 4 ∣ (f s).data.length) :
      Growth P start (d, t) (d, t.modify id f)
  | index {d : DynamicTables} {t : SymbolTable} {id : SymbolId}
      (hnone : (t.get id).dynamicIndex = none) :
      Growth P start (d, t) ({ d with count := d.count + 1 },
        t.modify id fun s => { s with dynamicIndex := some d.count })
  | stub {d : DynamicTables} {t : SymbolTable} {id : SymbolId} {stub slot : Nat}
      (hnone : (t.get id).pltOffset = none)
      (hstub : start.1.all.Nodup → InWords start.1 start.2 → 4 ∣ stub) :
      Growth P start (d, t) (d,
        t.modify id fun s => { s with pltOffset := some stub, gotPltOffset := some slot })
  /-- a symbol gets a slot, which is patched unless the symbol is an import -/
  | slot {d : DynamicTables} {t : SymbolTable} {id : SymbolId} {slot : Nat}
      (hnone : (t.get id).gotOffset = none)
      (hslot : d.got < t.size → (t.get id).isImport = false →
        slotWord id slot ∈ (t.get d.got).relocations) :
      Growth P start (d, t) (d, t.modify id fun s => { s with gotOffset := some slot })

/-- Any number of changes. -/
abbrev Growths (P : SymbolId → Prop) (start : DynamicTables × SymbolTable) :
    DynamicTables × SymbolTable → DynamicTables × SymbolTable → Prop :=
  ReflTransGen (Growth P start)

theorem Growth.table (hf : ∀ s, Grown P s (f s)) (hid : id ∈ d.others) :
    Growth P start (d, t) (d, t.modify id f) :=
  .extend id (mem_all_of_mem_others hid) hf fun hnodup heq =>
    absurd heq (ne_plt_of_mem_others hnodup hid)

/-- From `t` to `t'` entries were made in the tables. The relocations of the `owners` may have been
replaced. -/
structure Grows (owners : List SymbolId) (d : DynamicTables) (t : SymbolTable)
    (d' : DynamicTables) (t' : SymbolTable) : Prop where
  all : d'.all = d.all
  shell : Keeps shell t t'
  contents : ∀ id, id ∉ d.all →
    (t'.get id).data = (t.get id).data ∧ (t'.get id).size = (t.get id).size
  relocations : ∀ id, id ∉ d.all → id ∉ owners → (t'.get id).relocations = (t.get id).relocations
  stub : ∀ id stub, (t.get id).pltOffset = some stub → (t'.get id).pltOffset = some stub
  slot : ∀ id slot, (t.get id).gotOffset = some slot → (t'.get id).gotOffset = some slot
  inWords : d.all.Nodup → InWords d t → InWords d' t'

namespace Grows

theorem refl (owners : List SymbolId) (d : DynamicTables) (t : SymbolTable) :
    Grows owners d t d t :=
  ⟨rfl, .refl t, fun _ _ => ⟨rfl, rfl⟩, fun _ _ _ => rfl, fun _ _ h => h, fun _ _ h => h,
    fun _ h => h⟩

variable (h : Grows owners d t d' t')
include h

theorem trans (h' : Grows owners d' t' d'' t'') : Grows owners d t d'' t'' := by
  refine ⟨h'.all.trans h.all, h.shell.trans h'.shell, fun id hid => ?_, fun id hid howner => ?_,
    fun id stub hstub => h'.stub id stub (h.stub id stub hstub),
    fun id slot hslot => h'.slot id slot (h.slot id slot hslot), fun hnodup hwords => ?_⟩
  · obtain ⟨hdata, hsize⟩ := h.contents id hid
    obtain ⟨hdata', hsize'⟩ := h'.contents id (h.all ▸ hid)
    exact ⟨hdata'.trans hdata, hsize'.trans hsize⟩
  · exact (h'.relocations id (h.all ▸ hid) howner).trans (h.relocations id hid howner)
  · exact h'.inWords (h.all ▸ hnodup) (h.inWords hnodup hwords)

theorem mono (hsub : ∀ id ∈ owners, id ∈ owners') : Grows owners' d t d' t' :=
  ⟨h.all, h.shell, h.contents, fun id hid howner => h.relocations id hid (mt (hsub id) howner),
    h.stub, h.slot, h.inWords⟩

theorem record (hall : d''.all = d'.all) : Grows owners d t d'' t' := by
  refine h.trans ⟨hall, .refl t', fun _ _ => ⟨rfl, rfl⟩, fun _ _ _ => rfl, fun _ _ h => h,
    fun _ _ h => h, fun _ hwords => ?_⟩
  obtain ⟨hlength, hsize, hstub⟩ := hwords
  rw [← plt_eq_of_all hall] at hlength hsize
  exact ⟨hlength, hsize, hstub⟩

theorem modify (hshell : DynamicTables.shell (f (t'.get id)) = DynamicTables.shell (t'.get id))
    (hcontents : id ∉ d'.all →
      (f (t'.get id)).data = (t'.get id).data ∧ (f (t'.get id)).size = (t'.get id).size)
    (hrelocations : id ∉ d'.all → id ∉ owners →
      (f (t'.get id)).relocations = (t'.get id).relocations)
    (hstub : ∀ stub, (t'.get id).pltOffset = some stub → (f (t'.get id)).pltOffset = some stub)
    (hslot : ∀ slot, (t'.get id).gotOffset = some slot → (f (t'.get id)).gotOffset = some slot)
    (hwords : d.all.Nodup → InWords d t → InWords d' t' → InWords d' (t'.modify id f)) :
    Grows owners d t d' (t'.modify id f) := by
  refine ⟨h.all, h.shell.trans (.modify hshell), fun j hj => ?_, fun j hj howner => ?_,
    fun j stub hold => ?_, fun j slot hold => ?_,
    fun hnodup hstart => hwords hnodup hstart (h.inWords hnodup hstart)⟩
  all_goals
    rw [get_modify]
    split
  · rename_i heq
    obtain rfl := heq.1
    obtain ⟨hdata, hsize⟩ := hcontents (h.all ▸ hj)
    exact ⟨hdata.trans (h.contents _ hj).1, hsize.trans (h.contents _ hj).2⟩
  · exact h.contents j hj
  · rename_i heq
    obtain rfl := heq.1
    exact (hrelocations (h.all ▸ hj) howner).trans (h.relocations _ hj howner)
  · exact h.relocations j hj howner
  · rename_i heq
    obtain rfl := heq.1
    exact hstub stub (h.stub _ stub hold)
  · exact h.stub j stub hold
  · rename_i heq
    obtain rfl := heq.1
    exact hslot slot (h.slot _ slot hold)
  · exact h.slot j slot hold

theorem extend (hid : id ∈ d'.all) (hf : ∀ s, Grown P s (f s))
    (hwords : d'.all.Nodup → id = d'.plt → ∀ s, 4 ∣ s.data.length → 4 ∣ (f s).data.length) :
    Grows owners d t d' (t'.modify id f) := by
  have hkept := (hf (t'.get id)).kept
  have hplt : (f (t'.get id)).pltOffset = (t'.get id).pltOffset := congrArg (·.2.2.1) hkept
  have hgot : (f (t'.get id)).gotOffset = (t'.get id).gotOffset := congrArg (·.2.2.2.2) hkept
  refine h.modify (congrArg (·.1) hkept) (fun h => absurd hid h) (fun h => absurd hid h)
    (fun stub h => hplt.trans h) (fun slot h => hgot.trans h)
    fun hnodup _ hinWords => hinWords.modify (fun heq => ?_) ?_
  · obtain ⟨hlength, hsize, -⟩ := hinWords
    rw [← heq] at hlength hsize
    exact ⟨hwords (h.all ▸ hnodup) heq _ hlength, (hf _).size_eq hsize⟩
  · exact fun stub h => hinWords.stub id stub (hplt.symm.trans h)

theorem replace (howner : id ∈ owners) (relocations : List (Relocation SymbolId)) :
    Grows owners d t d' (t'.modify id fun s => { s with relocations }) :=
  h.modify rfl (fun _ => ⟨rfl, rfl⟩) (fun _ h => absurd howner h) (fun _ h => h) (fun _ h => h)
    fun _ _ hwords => hwords.note rfl rfl (hwords.stub id)

omit h

theorem tail (h : Grows owners start.1 start.2 s.1 s.2) (hstep : Growth P start s s') :
    Grows owners start.1 start.2 s'.1 s'.2 := by
  cases hstep with
  | record hall => exact h.record hall
  | extend id hid hf hwords => exact h.extend hid hf hwords
  | @index d t id =>
    exact (h.modify (f := fun s => { s with dynamicIndex := some d.count }) rfl
      (fun _ => ⟨rfl, rfl⟩) (fun _ _ => rfl) (fun _ h => h) (fun _ h => h)
      fun _ _ hwords => hwords.note rfl rfl (hwords.stub id)).record rfl
  | stub hnone hstub =>
    refine h.modify rfl (fun _ => ⟨rfl, rfl⟩) (fun _ _ => rfl) (fun stub hsome => ?_)
      (fun _ h => h) fun hnodup hstart hwords => hwords.note rfl rfl ?_
    · cases hnone.symm.trans hsome
    · rintro stub ⟨⟩
      exact hstub hnodup hstart
  | slot hnone =>
    refine h.modify rfl (fun _ => ⟨rfl, rfl⟩) (fun _ _ => rfl) (fun _ h => h)
      (fun slot hsome => ?_) fun _ _ hwords => hwords.note rfl rfl (hwords.stub _)
    cases hnone.symm.trans hsome

end Grows

variable (owners)

/-- **Growth.** What any number of changes leads to. -/
theorem Growths.grows (h : Growths P start start s) : Grows owners start.1 start.2 s.1 s.2 := by
  induction h with
  | refl => exact .refl owners _ _
  | tail _ hstep ih => exact ih.tail hstep

theorem Growths.foldl {α : Type}
    {step : DynamicTables × SymbolTable → α → DynamicTables × SymbolTable} {as : List α}
    (hstep : ∀ s a, a ∈ as → Growths P start s (step s a)) (s : DynamicTables × SymbolTable) :
    Growths P start s (as.foldl step s) :=
  foldl_induction .refl fun s' a ha h => h.trans (hstep s' a ha)

/-! ## Operations -/

variable (d t)

theorem growths_addName (name : String) : Growths P start (d, t) (d.addName t name).2 := by
  simp only [addName]
  split
  · exact .refl
  · rename_i hnone
    refine .tail (.single (.table (fun s => ?_) (by simp [others])))
      (.record rfl rfl fun hlt => .inr ⟨name, _, hnone, rfl, ?_⟩)
    · exact (Grown.append s _).trans (.append _ [0])
    · rw [get_modify_self (by simpa using hlt)]
      simp [Symbol.append]

theorem growths_addNeeded (library : String) : Growths P start (d, t) (d.addNeeded t library) := by
  simp only [addNeeded]
  split
  · exact .refl
  · have hnoted : Growth P start (d, t) ({ d with neededNames := library :: d.neededNames }, t) :=
      .record rfl rfl fun _ => .inl rfl
    exact .tail (.head hnoted (growths_addName ..)) (.record rfl rfl fun _ => .inl rfl)

theorem addName_recount (name : String) (count : Nat) : addName { d with count } t name =
      ((d.addName t name).1, { (d.addName t name).2.1 with count }, (d.addName t name).2.2) := by
  simp only [addName]
  split <;> rfl

theorem count_addName (name : String) : (d.addName t name).2.1.count = d.count := by
  simp only [addName]
  split <;> rfl

theorem entriesOf_addName (name : String) : Keeps entriesOf t (d.addName t name).2.2 := by
  simp only [addName]
  split
  · exact .refl t
  · exact .modify rfl

def libraryOf (s : Symbol) : Option String := if s.isImport then s.importLibrary else none

/-- Notes that a library is needed, if there is one. -/
def addLibrary (d : DynamicTables) (t : SymbolTable) : Option String → DynamicTables × SymbolTable
  | some library => d.addNeeded t library
  | none => (d, t)

theorem growths_addLibrary (library? : Option String) :
    Growths P start (d, t) (d.addLibrary t library?) := by
  cases library? with
  | none => exact .refl
  | some library => exact growths_addNeeded d t library

theorem entriesOf_addLibrary (library? : Option String) :
    Keeps entriesOf t (d.addLibrary t library?).2 := by
  cases library? with
  | none => exact .refl t
  | some library =>
    simp only [addLibrary, addNeeded]
    split
    · exact .refl t
    · exact entriesOf_addName ..

variable {d t}

def enter (d : DynamicTables) (t : SymbolTable) (id : SymbolId) (offset index : Nat) :
    SymbolTable :=
  (t.modify d.dynSym fun entry => appendEntry entry id (t.get id) offset).modify id fun s =>
    { s with dynamicIndex := some index }

theorem ensureIndex_of_none {d₁ : DynamicTables} {t₁ : SymbolTable}
    (hnone : (t.get id).dynamicIndex = none)
    (hadd : addName { d with count := d.count + 1 } t (t.get id).dynamicName = (offset, d₁, t₁)) :
    d.ensureIndex t id =
      (d.count, d₁.addLibrary (d₁.enter t₁ id offset d.count) (libraryOf (t₁.get id))) := by
  simp only [ensureIndex, hnone, hadd, libraryOf]
  cases (t₁.get id).importLibrary with
  | none => cases (t₁.get id).isImport <;> rfl
  | some library => cases (t₁.get id).isImport <;> rfl

theorem growths_ensureIndex (d : DynamicTables) (t : SymbolTable) (hid : P id) :
    Growths P start (d, t) (d.ensureIndex t id).2 := by
  cases hnone : (t.get id).dynamicIndex with
  | some index =>
    simp only [ensureIndex, hnone]
    exact .refl
  | none =>
    have hname : Growths P start (d, t) (d.addName t (t.get id).dynamicName).2 :=
      growths_addName ..
    have hcount := count_addName d t (t.get id).dynamicName
    have hentries := entriesOf_addName d t (t.get id).dynamicName
    have hadd := addName_recount d t (t.get id).dynamicName (d.count + 1)
    generalize d.addName t (t.get id).dynamicName = added at hname hcount hentries hadd
    obtain ⟨offset, d₁, t₁⟩ := added
    -- the order of counting and of adding the name does not matter
    rw [ensureIndex_of_none hnone hadd]
    refine .trans ?_ (growths_addLibrary _ _ _)
    have hindex : ((t₁.modify d₁.dynSym fun entry =>
        appendEntry entry id (t₁.get id) offset).get id).dynamicIndex = none := by
      have hkeeps := hentries.andModify (f := fun entry => appendEntry entry id (t₁.get id) offset)
        (congrArg (·.2) (kept_appendEntry (t₁.get d₁.dynSym) ..))
      exact ((hkeeps.map (·.1)).2 id).trans hnone
    have hnumber : Growth P start (d₁, _) _ := .index hindex
    rw [hcount] at hnumber
    exact .tail (.tail hname (.table (fun entry => .appendEntry entry (fun _ => hid) offset)
      (by simp [others]))) hnumber

theorem offsets_ensureIndex (d : DynamicTables) (t : SymbolTable) (id : SymbolId) :
    Keeps (fun s => (entriesOf s).2) t (d.ensureIndex t id).2.2 := by
  cases hnone : (t.get id).dynamicIndex with
  | some index =>
    simp only [ensureIndex, hnone]
    exact .refl t
  | none =>
    have hentries := entriesOf_addName { d with count := d.count + 1 } t (t.get id).dynamicName
    rcases hadd : addName { d with count := d.count + 1 } t (t.get id).dynamicName with
      ⟨offset, d₁, t₁⟩
    rw [hadd] at hentries
    rw [ensureIndex_of_none hnone hadd]
    have hentry := (hentries.andModify (f := fun entry => appendEntry entry id (t₁.get id) offset)
      (congrArg (·.2) (kept_appendEntry (t₁.get d₁.dynSym) ..))).map (·.2)
    have hnoted {t : SymbolTable} : Keeps (fun s => (entriesOf s).2) t
        (t.modify id fun s => { s with dynamicIndex := some d.count }) := .modify rfl
    exact (hentry.trans hnoted).trans ((entriesOf_addLibrary ..).map (·.2))

theorem keeps_appendRel {α : Type} {p : Symbol → α} {table : SymbolId} {index type : Nat}
    (hp : ∀ s addend w, p ((s.appendPatched .absolute owner addend).appendWord w) = p s) :
    Keeps p t (appendRel table t owner offset index type) :=
  .modify (hp ..)

theorem growths_appendRel {table : SymbolId} {index type : Nat} (howner : P owner)
    (htable : table ∈ d.others) :
    Growth P start (d, t) (d, appendRel table t owner offset index type) :=
  .table (fun s => .appendRel s howner offset index type) htable

/-- The code of a stub, for a slot at an offset. -/
def stubCode (d : DynamicTables) (slot : Nat) (s : Symbol) : Symbol :=
  let addend : Word64 := .ofInt 64 ((slot : Int) - 8)
  ((s.appendPatched .plt0 d.gotPlt addend).appendPatched .plt1 d.gotPlt addend).appendPatched
    .plt2 d.gotPlt addend

theorem grown_stubCode (hgotPlt : P d.gotPlt) (slot : Nat) (s : Symbol) :
    Grown P s (d.stubCode slot s) :=
  ((Grown.appendPatched s .plt0 nofun hgotPlt _).trans
    (.appendPatched _ .plt1 nofun hgotPlt _)).trans (.appendPatched _ .plt2 nofun hgotPlt _)

theorem length_data_stubCode {slot : Nat} {s : Symbol} :
    (d.stubCode slot s).data.length = s.data.length + 12 := by
  simp only [stubCode, length_data_appendPatched]

theorem growths_ensureStub (t : SymbolTable) (htables : ∀ table ∈ d.all, P table) (hid : P id) :
    Growths P (d, t) (d, t) (d.ensureStub t id).2 := by
  simp only [ensureStub]
  split
  · exact .refl
  · rename_i hnone
    have hindex : Growths P (d, t) (d, t) (d.ensureIndex t id).2 := growths_ensureIndex d t hid
    have hentries := offsets_ensureIndex d t id
    generalize d.ensureIndex t id = found at hindex hentries
    obtain ⟨index, d₁, t₁⟩ := found
    have hall : d₁.all = d.all := (Growths.grows [] hindex).all
    rw [← hall] at htables
    have hplt : P d₁.plt := htables d₁.plt d₁.plt_mem_all
    have hgotPlt : P d₁.gotPlt := htables d₁.gotPlt (by simp [all])
    have hslot : Growths P (d, t) (d, t)
        (d₁, t₁.modify d₁.gotPlt (·.appendPatched .absolute d₁.plt 0)) :=
      hindex.tail (.table (fun s => .appendPatched s .absolute absolute_ne_elf hplt 0)
        (by simp [others]))
    have hstubs : Keeps Symbol.pltOffset t
        (t₁.modify d₁.gotPlt (·.appendPatched .absolute d₁.plt 0)) :=
      .andModify (hentries.map (·.1)) rfl
    generalize t₁.modify d₁.gotPlt (·.appendPatched .absolute d₁.plt 0) = t₂ at hslot hstubs ⊢
    -- the slot leads to the stubs, and the stub and the loader's entry to the slots
    have hcode := grown_stubCode hgotPlt (t₁.get d₁.gotPlt).data.length
    have hstub := hstubs.andModify (congrArg (·.2.2.1) (hcode (t₂.get d₁.plt)).kept)
    refine .tail (.tail (.tail hslot (.extend d₁.plt d₁.plt_mem_all hcode fun _ _ s hs => ?_))
      (growths_appendRel hgotPlt (by simp [others]))) (.stub ?_ fun hnodup hwords => ?_)
    · rw [length_data_stubCode]
      exact Nat.dvd_add hs (by decide)
    · exact ((hstub.trans (keeps_appendRel fun _ _ _ => rfl)).2 id).trans hnone
    · -- the stub starts where the table ended
      obtain ⟨hlength, hsize, -⟩ := (Growths.grows [] hslot).inWords hnodup hwords
      exact hsize ▸ hlength

theorem growths_ensureSlot (t : SymbolTable) (htables : ∀ table ∈ d.all, P table) (hid : P id) :
    Growths P (d, t) (d, t) (d.ensureSlot t id).2 := by
  simp only [ensureSlot]
  split
  · exact .refl
  · rename_i hnone
    split
    · rename_i himport
      have hindex : Growths P (d, t) (d, t) (d.ensureIndex t id).2 := growths_ensureIndex d t hid
      have hentries := offsets_ensureIndex d t id
      generalize d.ensureIndex t id = found at hindex hentries
      obtain ⟨index, d₁, t₁⟩ := found
      have hall : d₁.all = d.all := (Growths.grows [] hindex).all
      have hgot : P d₁.got := htables d₁.got (hall ▸ by simp [all])
      have hfilled : Growths P (d, t) (d, t) (d₁, appendRel d₁.rel
          (t₁.modify d₁.got (·.appendWord 0)) d₁.got (t₁.get d₁.got).data.length index
          Elf.RelocationType.globDat) :=
        (hindex.tail (.table (fun s => .appendWord s 0) (by simp [others]))).tail
          (growths_appendRel hgot (by simp [others]))
      refine hfilled.tail (.slot ?_ fun _ hnot => ?_)
      · have hslots : Keeps Symbol.gotOffset t t₁ := hentries.map (·.2.2)
        have hslots : Keeps Symbol.gotOffset t (t₁.modify d₁.got (·.appendWord 0)) :=
          hslots.andModify rfl
        exact ((hslots.trans (keeps_appendRel fun _ _ _ => rfl)).2 id).trans hnone
      · -- the symbol is still an import
        have hkept := ((Growths.grows [] hfilled).shell.read Symbol.isImport fun _ => rfl).2 id
        exact absurd (hnot.symm.trans (hkept.trans himport)) Bool.false_ne_true
    · have hkeeps : Keeps Symbol.gotOffset t (t.modify d.got (·.appendPatched .absolute id 0)) :=
        .modify rfl
      refine .tail
        (.single (.table (fun s => .appendPatched s .absolute absolute_ne_elf hid 0)
          (by simp [others])))
        (.slot ((hkeeps.2 id).trans hnone) fun hlt _ => ?_)
      rw [get_modify_self (by simpa using hlt)]
      exact mem_append_right _ mem_cons_self

theorem growths_exportSymbols (d : DynamicTables) (t : SymbolTable)
    (hexported : ∀ id ∈ t.exported, P id) : Growths P start (d, t) (d.exportSymbols t) :=
  .foldl (fun s id hid => growths_ensureIndex s.1 s.2 (hexported id hid)) _

theorem growths_addRelocation (d : DynamicTables) (t : SymbolTable) (howner : P owner)
    (offset index type : Nat) :
    Growths P start (d, t) (d.addRelocation t owner offset index type) :=
  .tail (.single (growths_appendRel howner (by simp [others]))) (.record rfl rfl fun _ => .inl rfl)

theorem mem_all_of_mem_entries {runPath : Option Nat} {e : Entry} (he : e ∈ d.entries runPath)
    {tag : Nat} {table : SymbolId} (htable : e = .address tag table ∨ e = .size tag table) :
    table ∈ d.all := by
  cases runPath <;> cases htextRel : d.textRel <;>
    rcases htable with rfl | rfl <;> simp_all [entries, all] <;> grind

theorem growths_finish (t : SymbolTable) (runPath : Option String)
    (htables : ∀ table ∈ d.all, P table) : Growths P (d, t) (d, t) (d.finish t runPath) := by
  have hhash : Growths P (d, t) (d, t) (d, d.writeHash t) :=
    .single (.table (fun s => .append s _) (by simp [others]))
  have hentries (d' : DynamicTables) (hall : d'.all = d.all) (t' : SymbolTable)
      (path : Option Nat) : Growth P (d, t) (d', t')
        (d', t'.modify d'.dynamic fun s => (d'.entries path).foldl Entry.append s) :=
    .table (fun s => .entries s fun e he tag table htable =>
      htables table (hall ▸ mem_all_of_mem_entries he htable)) (by simp [others])
  cases runPath with
  | none => exact .tail hhash (hentries d rfl _ none)
  | some path =>
    have hname := hhash.trans (growths_addName d (d.writeHash t) path)
    exact .tail hname (hentries _ (Growths.grows [] hname).all _ _)

/-! ## What operations lead to -/

theorem grows_ensureIndex (d : DynamicTables) (t : SymbolTable) (id : SymbolId) :
    Grows owners d t (d.ensureIndex t id).2.1 (d.ensureIndex t id).2.2 :=
  Growths.grows owners (growths_ensureIndex (P := fun _ => True) d t trivial)

theorem grows_ensureStub (d : DynamicTables) (t : SymbolTable) (id : SymbolId) :
    Grows owners d t (d.ensureStub t id).2.1 (d.ensureStub t id).2.2 :=
  Growths.grows owners (growths_ensureStub (P := fun _ => True) t (fun _ _ => trivial) trivial)

theorem grows_ensureSlot (d : DynamicTables) (t : SymbolTable) (id : SymbolId) :
    Grows owners d t (d.ensureSlot t id).2.1 (d.ensureSlot t id).2.2 :=
  Growths.grows owners (growths_ensureSlot (P := fun _ => True) t (fun _ _ => trivial) trivial)

theorem grows_addRelocation (d : DynamicTables) (t : SymbolTable) (owner : SymbolId)
    (offset index type : Nat) : Grows owners d t (d.addRelocation t owner offset index type).1
      (d.addRelocation t owner offset index type).2 :=
  Growths.grows owners (growths_addRelocation (P := fun _ => True) d t trivial offset index type)

variable {owners}

variable (d t)

theorem grows_exportSymbols : Grows [] d t (d.exportSymbols t).1 (d.exportSymbols t).2 :=
  Growths.grows [] (growths_exportSymbols (P := fun _ => True) d t fun _ _ => trivial)

theorem growths_addRelative : Growths (fun _ => True) start (d, t) (d.addRelative t) :=
  .foldl (fun _ _ _ => .foldl (fun s _ _ => growths_addRelocation s.1 s.2 trivial ..) _) _

theorem grows_addRelative : Grows [] d t (d.addRelative t).1 (d.addRelative t).2 :=
  Growths.grows [] (growths_addRelative d t)

theorem grows_finish (runPath : Option String) :
    Grows [] d t (d.finish t runPath).1 (d.finish t runPath).2 :=
  Growths.grows [] (growths_finish (P := fun _ => True) t runPath fun _ _ => trivial)

variable {d t}

theorem pltOffset_ensureStub (d : DynamicTables) (hid : id < t.size) :
    ((d.ensureStub t id).2.2.get id).pltOffset = some (d.ensureStub t id).1 := by
  unfold DynamicTables.ensureStub
  split
  · rename_i stub hstub
    exact hstub
  · have hindex := (grows_ensureIndex [] d t id).shell.1
    rw [get_modify_self]
    simpa only [DynamicTables.appendRel, size_modify, hindex] using hid

theorem gotOffset_ensureSlot (d : DynamicTables) (hid : id < t.size) :
    ((d.ensureSlot t id).2.2.get id).gotOffset = some (d.ensureSlot t id).1 := by
  simp only [DynamicTables.ensureSlot]
  split
  · rename_i slot hslot
    exact hslot
  · split
    · have hindex := (grows_ensureIndex [] d t id).shell.1
      rw [get_modify_self]
      simpa only [DynamicTables.appendRel, size_modify, hindex] using hid
    · rw [get_modify_self]
      simpa only [size_modify] using hid

end ArmLink.DynamicTables
