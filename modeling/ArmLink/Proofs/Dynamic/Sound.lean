import ArmLink.Proofs.Dynamic.Relative

/-!
# What the tables of the dynamic loader say

Whatever is noted at a symbol stands in the tables: the stub of an import leads to the slot that the
loader fills for it, and the slot of an import in the global offset table is filled by the import's
index. The relocations of a table patch its bytes one after the other, none of them is raw, and none
refers to an import. The loader is told whether it has to patch code.
-/

namespace ArmLink.DynamicTables

open SymbolTable List Elf.RelocationType
open Relocation (Kind)

variable {d d' : DynamicTables} {t t' : SymbolTable} {id owner table : SymbolId}
  {offset index type : Nat} {f : Symbol → Symbol}

/-! ## The relocations of a table -/

/-- The relocations of a table patch its bytes, one after the other, and each of them satisfies `p`.
-/
structure Filled (p : Relocation SymbolId → Prop) (s : Symbol) : Prop where
  size : s.size = s.data.length
  stop : ∀ r ∈ s.relocations, r.stop ≤ s.data.length
  sorted : s.relocations.Pairwise fun r r' => r.stop ≤ r'.offset
  each : ∀ r ∈ s.relocations, p r

variable {p : Relocation SymbolId → Prop} {P : SymbolId → Prop} {s s' : Symbol}

theorem Filled.imp {q : Relocation SymbolId → Prop} (h : Filled p s) (hpq : ∀ r, p r → q r) :
    Filled q s :=
  ⟨h.size, h.stop, h.sorted, fun r hr => hpq r (h.each r hr)⟩

theorem Filled.congr (h : Filled p s) (heq : contents s' = contents s) : Filled p s' := by
  simp only [contents, Prod.mk.injEq] at heq
  obtain ⟨hdata, hsize, hrelocations⟩ := heq
  obtain ⟨h₁, h₂, h₃, h₄⟩ := h
  rw [← hrelocations] at h₂ h₃ h₄
  rw [← hdata] at h₁ h₂
  exact ⟨hsize.trans h₁, h₂, h₃, h₄⟩

theorem FirstContents.filled (h : FirstContents d t)
    (hp : p (.pending 16 4 .pcRelative (some d.gotPlt) 4)) (hid : id ∈ d.all) :
    Filled p (t.get id) := by
  obtain ⟨data, rs, hcontents, hcases⟩ := h.cases hid
  simp only [contents, Prod.mk.injEq] at hcontents
  obtain ⟨rfl, hsize, rfl⟩ := hcontents
  rcases hcases with hempty | ⟨hlength, hone⟩
  · constructor <;> simp [hempty, hsize]
  · refine ⟨hsize, ?_, ?_, ?_⟩ <;>
      simp only [hone, hlength, forall_mem_singleton, pairwise_singleton]
    · exact Nat.le_refl 20
    · exact hp

theorem Grown.extends (h : Grown P s s') :
    s.data <+: s'.data ∧ s.relocations <+: s'.relocations := by
  obtain ⟨bytes, patches, size, rfl, -⟩ := h
  exact ⟨prefix_append _ _, prefix_append _ _⟩

/-- What is put at the end of a table patches what is new. -/
theorem Grown.filled (h : Grown P s s') (hs : Filled (Leads P) s) : Filled (Leads P) s' := by
  have hsize := h.size_eq hs.size
  obtain ⟨bytes, patches, size, rfl, -, hsorted, hpatches⟩ := h
  refine ⟨hsize, fun r hr => ?_,
    pairwise_append.mpr ⟨hs.sorted, hsorted, fun r hr r' hr' => ?_⟩, fun r hr => ?_⟩
  · rw [length_append]
    rcases mem_append.mp hr with hr | hr
    · exact Nat.le_add_right_of_le (hs.stop r hr)
    · exact (hpatches r hr).2.1
  · exact Nat.le_trans (hs.stop r hr) (hpatches r' hr').1
  · rcases mem_append.mp hr with hr | hr
    · exact hs.each r hr
    · exact (hpatches r hr).2.2

theorem isImport_of_isPlaced (h : s.kind.isPlaced = true) : s.isImport = false := by
  refine decide_eq_false fun hkind => ?_
  rw [hkind] at h
  cases h

/-- A relocation has one of the linker's own kinds, and a target that is no import. -/
def Clean (t : SymbolTable) (r : Relocation SymbolId) : Prop :=
  ∃ kind target addend, r.outcome = .pending kind (some target) addend ∧
    (∀ type, kind ≠ .elf type) ∧ (t.get target).isImport = false

theorem Clean.keeps {r : Relocation SymbolId} (h : Clean t r)
    (hkeeps : Keeps Symbol.isImport t t') : Clean t' r := by
  obtain ⟨kind, target, addend, houtcome, hkind, htarget⟩ := h
  exact ⟨kind, target, addend, houtcome, hkind, (hkeeps.2 target).trans htarget⟩

/-- A symbol that is no import. -/
abbrev NoImport (t : SymbolTable) (id : SymbolId) : Prop := (t.get id).isImport = false

/-! ## What is noted -/

/-- The relocation by which the `k`-th entry of a table tells the address of a word. -/
def relEntry (k : Nat) (x : SymbolId × Nat) : Relocation SymbolId :=
  .pending (8 * k) 4 .absolute (some x.1) (.ofNat 64 x.2)

/-- A table has an entry that asks the loader to patch a word of `owner`. -/
def Told (t : SymbolTable) (table owner : SymbolId) (offset index type : Nat) : Prop :=
  ∃ k, relEntry k (owner, offset) ∈ (t.get table).relocations ∧
    (t.get table).data.slice? (8 * k + 4) 4 = some (Bytes.ofWord
      (info (.ofNat 32 index) (.ofNat 32 type)))

theorem told_appendRel (hlt : table < t.size) (hdvd : 8 ∣ (t.get table).data.length) :
    Told (appendRel table t owner offset index type) table owner offset index type := by
  obtain ⟨k, hk⟩ := hdvd
  refine ⟨k, ?_, ?_⟩
  · rw [appendRel, get_modify_self hlt, relEntry, ← hk]
    exact mem_append_right _ mem_cons_self
  · have hslice := Bytes.slice?_append_self ((t.get table).data ++ Bytes.ofWord 0)
      (Bytes.ofWord (info (.ofNat 32 index) (.ofNat 32 type))) []
    rw [append_nil, length_append, Bytes.length_ofWord, Bytes.length_ofWord, hk] at hslice
    rw [appendRel, get_modify_self hlt]
    exact hslice

/-- What was in the tables is still there. -/
def Extends (d : DynamicTables) (t t' : SymbolTable) : Prop :=
  ∀ id ∈ d.all, (t.get id).data <+: (t'.get id).data ∧
    (t.get id).relocations <+: (t'.get id).relocations

theorem Told.extends (h : Told t table owner offset index type) (hextends : Extends d t t')
    (htable : table ∈ d.all) : Told t' table owner offset index type := by
  obtain ⟨k, hk, hslice⟩ := h
  obtain ⟨⟨more, hdata⟩, hrelocations⟩ := hextends table htable
  exact ⟨k, hrelocations.subset hk, hdata ▸ Bytes.slice?_append_left hslice more⟩

/-- The relocations that make up a stub, for a slot at an offset. -/
def stubWords (d : DynamicTables) (stub slot : Nat) : List (Relocation SymbolId) :=
  let addend : Word64 := .ofInt 64 ((slot : Int) - 8)
  [.pending stub 4 .plt0 (some d.gotPlt) addend,
   .pending (stub + 4) 4 .plt1 (some d.gotPlt) addend,
   .pending (stub + 8) 4 .plt2 (some d.gotPlt) addend]

/-- What is noted at the symbol `s` stands in the tables. -/
structure Noted (d : DynamicTables) (t : SymbolTable) (s : Symbol) : Prop where
  slot : ∀ slot, s.isImport = true → s.gotOffset = some slot →
    ∃ index, s.dynamicIndex = some index ∧
      Told t d.rel d.got slot index globDat
  stub : ∀ stub, s.pltOffset = some stub → ∃ slot index,
    s.gotPltOffset = some slot ∧ s.dynamicIndex = some index ∧
      (∀ r ∈ d.stubWords stub slot, r ∈ (t.get d.plt).relocations) ∧
      .pending slot 4 .absolute (some d.plt) 0 ∈ (t.get d.gotPlt).relocations ∧
      Told t d.relPlt d.gotPlt slot index jumpSlot

theorem Noted.extends (h : Noted d t s) (hextends : Extends d t t')
    (himport : s'.isImport = s.isImport) (hentries : entriesOf s' = entriesOf s) :
    Noted d t' s' := by
  simp only [entriesOf, Prod.mk.injEq] at hentries
  obtain ⟨hindex, hplt, hgotPlt, hgot⟩ := hentries
  refine ⟨fun slot himport' hslot => ?_, fun stub hstub => ?_⟩
  · obtain ⟨index, hindex', htold⟩ := h.slot slot (himport ▸ himport') (hgot ▸ hslot)
    exact ⟨index, hindex.trans hindex', htold.extends hextends (by simp [all])⟩
  · obtain ⟨slot, index, hslot, hindex', hwords, hfirst, htold⟩ := h.stub stub (hplt ▸ hstub)
    refine ⟨slot, index, hgotPlt.trans hslot, hindex.trans hindex', fun r hr => ?_, ?_,
      htold.extends hextends (by simp [all])⟩
    · exact (hextends d.plt (by simp [all])).2.subset (hwords r hr)
    · exact (hextends d.gotPlt (by simp [all])).2.subset hfirst

/-- The loader is asked to patch these words, given by their owners and offsets: slots of the global
offset table, and words that satisfy `q`. It is told whether one of them is code. -/
structure Asks (q : SymbolId → Nat → Prop) (d : DynamicTables) (t : SymbolTable)
    (asks : List (SymbolId × Nat)) : Prop where
  relocations : (t.get d.rel).relocations = asks.mapIdx relEntry
  length : (t.get d.rel).data.length = 8 * asks.length
  each : ∀ x ∈ asks, x.1 = d.got ∧ x.2 + 4 ≤ (t.get d.got).data.length ∨ q x.1 x.2
  textRel : d.textRel = true ↔ ∃ x ∈ asks, (t.get x.1).kind.isText = true

/-! ## The invariant -/

/-- The tables, with the dynamic section as it is given, say what is noted at symbols. -/
structure Sound (q : SymbolId → Nat → Prop) (dynamic : Bytes) (d : DynamicTables)
    (t : SymbolTable) : Prop where
  nodup : d.all.Nodup
  tables : ∀ id ∈ d.all, id < t.size
  kind : ∀ e ∈ d.named, (t.get e.2).kind = tableKind e.1
  filled : ∀ id ∈ d.all, Filled (Clean t) (t.get id)
  noted : ∀ id, Noted d t (t.get id)
  relPlt : 8 ∣ (t.get d.relPlt).data.length
  asks : ∃ asks, Asks q d t asks
  dynamic : (t.get d.dynamic).data = dynamic

namespace Sound

variable {q q' : SymbolId → Nat → Prop} {b : Bytes}

theorem mono (h : Sound q b d t) (hq : ∀ owner offset, q owner offset → q' owner offset) :
    Sound q' b d t := by
  obtain ⟨asks, hasks⟩ := h.asks
  exact ⟨h.nodup, h.tables, h.kind, h.filled, h.noted, h.relPlt,
    ⟨asks, hasks.relocations, hasks.length, fun x hx => (hasks.each x hx).imp_right (hq _ _),
      hasks.textRel⟩, h.dynamic⟩

theorem isImport_table (h : Sound q b d t) (hid : id ∈ d.all) : (t.get id).isImport = false := by
  obtain ⟨e, he, rfl⟩ := mem_map.mp (show id ∈ d.named.map (·.2) from hid)
  refine isImport_of_isPlaced ?_
  rw [h.kind e he]
  exact isPlaced_tableKind e.1

theorem record (h : Sound q b d t) (hall : d'.all = d.all) (htextRel : d'.textRel = d.textRel) :
    Sound q b d' t := by
  obtain ⟨asks, hasks⟩ := h.asks
  cases d
  cases d'
  obtain ⟨rfl, rfl, rfl, rfl, rfl, rfl, rfl, rfl, rfl⟩ := hall
  cases htextRel
  exact ⟨h.nodup, h.tables, h.kind, h.filled, fun id => ⟨(h.noted id).slot, (h.noted id).stub⟩,
    h.relPlt, ⟨asks, hasks.relocations, hasks.length, hasks.each, hasks.textRel⟩, h.dynamic⟩

theorem asks_of_rel {asks : List (SymbolId × Nat)} (h : Asks q d t asks)
    (hshell : Keeps shell t t') (hextends : Extends d t t')
    (hrel : contents (t'.get d.rel) = contents (t.get d.rel)) : Asks q d t' asks := by
  simp only [contents, Prod.mk.injEq] at hrel
  obtain ⟨hdata, -, hrelocations⟩ := hrel
  have hkind := (hshell.read Symbol.kind fun _ => rfl).2
  refine ⟨hrelocations.trans h.relocations, hdata ▸ h.length, fun x hx => ?_, ?_⟩
  · refine (h.each x hx).imp_left fun hgot => ⟨hgot.1, Nat.le_trans hgot.2 ?_⟩
    exact (hextends d.got (by simp [all])).1.length_le
  · simp only [hkind]
    exact h.textRel

variable (h : Sound q b d t)
include h

theorem extends_modify (hid : id ∈ d.all) (hgrown : Grown P (t.get id) (f (t.get id))) :
    Extends d t (t.modify id f) := by
  intro j _
  by_cases hj : j = id
  · rw [hj, get_modify_self (h.tables id hid)]
    exact hgrown.extends
  · rw [get_modify_ne hj]
    exact ⟨prefix_rfl, prefix_rfl⟩

theorem grow (textRel : Bool) (hid : id ∈ d.all)
    (hgrown : Grown (NoImport t) (t.get id) (f (t.get id)))
    (hrelPlt : id = d.relPlt → 8 ∣ (f (t.get id)).data.length)
    (hasks : ∃ asks, Asks q { d with textRel } (t.modify id f) asks) :
    Sound q (if id = d.dynamic then (f (t.get id)).data else b) { d with textRel }
      (t.modify id f) := by
  have hkept : Keeps (fun s => (shell s, entriesOf s)) t (t.modify id f) := .modify hgrown.kept
  have hshell : Keeps shell t (t.modify id f) := hkept.map Prod.fst
  have himport := hshell.read Symbol.isImport fun _ => rfl
  have hentries : Keeps entriesOf t (t.modify id f) := hkept.map Prod.snd
  have hself := get_modify_self (f := f) (h.tables id hid)
  have hnoted (j : SymbolId) := (h.noted j).extends (h.extends_modify hid hgrown) (himport.2 j)
    (hentries.2 j)
  refine ⟨h.nodup, fun j hj => (size_modify t id f).symm ▸ h.tables j hj, fun e he => ?_,
    fun j hj => ?_, fun j => ⟨(hnoted j).slot, (hnoted j).stub⟩, ?_, hasks, ?_⟩
  · exact ((hshell.map Symbol.kind).2 e.2).trans (h.kind e he)
  · refine Filled.imp (p := Clean t) ?_ fun r hr => hr.keeps himport
    by_cases heq : j = id
    · rw [heq, hself]
      exact hgrown.filled (h.filled id hid)
    · rw [get_modify_ne heq]
      exact h.filled j hj
  · show 8 ∣ ((t.modify id f).get d.relPlt).data.length
    by_cases heq : d.relPlt = id
    · rw [heq, hself]
      exact hrelPlt heq.symm
    · rw [get_modify_ne heq]
      exact h.relPlt
  · show ((t.modify id f).get d.dynamic).data = _
    split
    · rename_i heq
      rw [← heq, hself]
    · rename_i heq
      rw [get_modify_ne (Ne.symm heq)]
      exact h.dynamic

theorem extend (id : SymbolId) (hid : id ∈ d.all) (hrel : id ≠ d.rel)
    (hgrown : Grown (NoImport t) (t.get id) (f (t.get id)))
    (hrelPlt : id = d.relPlt → 8 ∣ (f (t.get id)).data.length) :
    Sound q (if id = d.dynamic then (f (t.get id)).data else b) d (t.modify id f) := by
  obtain ⟨asks, hasks⟩ := h.asks
  have hshell : Keeps shell t (t.modify id f) := .modify (congrArg Prod.fst hgrown.kept)
  refine h.grow d.textRel hid hgrown hrelPlt
    ⟨asks, asks_of_rel hasks hshell (h.extends_modify hid hgrown) ?_⟩
  rw [get_modify_ne (Ne.symm hrel)]

theorem extendPlain (id : SymbolId)
    (hid : id ∈ [d.dynSym, d.dynStr, d.got, d.hash, d.gotPlt, d.plt])
    (hgrown : Grown (NoImport t) (t.get id) (f (t.get id))) : Sound q b d (t.modify id f) := by
  have hnodup := h.nodup
  have hothers : id ∈ d.all ∧ id ≠ d.rel ∧ id ≠ d.relPlt ∧ id ≠ d.dynamic := by
    simp only [all, nodup_cons, mem_cons, not_mem_nil, or_false] at hnodup hid ⊢
    grind
  obtain ⟨hall, hrel, hrelPlt, hdynamic⟩ := hothers
  have hextended := h.extend id hall hrel hgrown fun heq => absurd heq hrelPlt
  rwa [if_neg hdynamic] at hextended

theorem ask (howner : (t.get owner).isImport = false)
    (hq : owner = d.got ∧ offset + 4 ≤ (t.get d.got).data.length ∨ q owner offset)
    (index type : Nat) : Sound q b { d with textRel := d.textRel || (t.get owner).kind.isText }
      (appendRel d.rel t owner offset index type) := by
  obtain ⟨asks, hasks⟩ := h.asks
  have hgrown := Grown.appendRel (P := NoImport t) (t.get d.rel) howner offset index type
  have hlt := h.tables d.rel (by simp [all])
  have hgrow := h.grow (f := fun s =>
      (s.appendPatched .absolute owner (.ofNat 64 offset)).appendWord
        (info (.ofNat 32 index) (.ofNat 32 type)))
    (d.textRel || (t.get owner).kind.isText) (by simp [all]) hgrown
    (fun heq => absurd heq (ne_of_all h.nodup 2 7 rfl rfl (by decide)))
    ⟨asks ++ [(owner, offset)], ?_⟩
  · rwa [if_neg (ne_of_all h.nodup 2 8 rfl rfl (by decide))] at hgrow
  have hkind : Keeps Symbol.kind t (appendRel d.rel t owner offset index type) := .modify rfl
  have hself : (appendRel d.rel t owner offset index type).get d.rel = _ := get_modify_self hlt
  refine ⟨?_, ?_, fun x hx => ?_, ?_⟩
  · refine (congrArg Symbol.relocations hself).trans ?_
    rw [mapIdx_append, ← hasks.relocations, mapIdx_singleton, relEntry, Nat.zero_add,
      ← hasks.length]
    rfl
  · refine (congrArg (fun s => s.data.length) hself).trans ?_
    rw [length_data_appendWord, length_data_appendPatched, hasks.length, length_append,
      length_singleton]
    omega
  · show x.1 = d.got ∧ x.2 + 4 ≤ ((t.modify d.rel _).get d.got).data.length ∨ q x.1 x.2
    rw [get_modify_ne (ne_of_all h.nodup 3 2 rfl rfl (by decide))]
    rcases mem_append.mp hx with hx | hx
    · exact hasks.each x hx
    · cases mem_singleton.mp hx
      exact hq
  · show (d.textRel || (t.get owner).kind.isText) = true ↔ ∃ x ∈ asks ++ [(owner, offset)],
      ((appendRel d.rel t owner offset index type).get x.1).kind.isText = true
    simp only [hkind.2, Bool.or_eq_true, hasks.textRel, mem_append, mem_singleton]
    constructor
    · rintro (⟨x, hx, htext⟩ | htext)
      · exact ⟨x, .inl hx, htext⟩
      · exact ⟨_, .inr rfl, htext⟩
    · rintro ⟨x, hx | rfl, htext⟩
      · exact .inl ⟨x, hx, htext⟩
      · exact .inr htext

theorem isText_got : (t.get d.got).kind.isText = false := by
  rw [h.kind (_, d.got) (mem_of_getElem? (i := 3) rfl)]
  rfl

theorem askSlot {slot : Nat} (hslot : slot + 4 ≤ (t.get d.got).data.length) (index type : Nat) :
    Sound q b d (appendRel d.rel t d.got slot index type) := by
  have hasked := h.ask (h.isImport_table (by simp [all])) (.inl ⟨rfl, hslot⟩) index type
  rw [h.isText_got, Bool.or_false] at hasked
  exact hasked

theorem note (hf : ∀ s, (shell (f s), contents (f s)) = (shell s, contents s))
    (hnoted : Noted d t (f (t.get id))) : Sound q b d (t.modify id f) := by
  have hkept : Keeps (fun s => (shell s, contents s)) t (t.modify id f) := .modify (hf _)
  have hshell : Keeps shell t (t.modify id f) := hkept.map Prod.fst
  have himport := hshell.read Symbol.isImport fun _ => rfl
  have hcontents : Keeps contents t (t.modify id f) := hkept.map Prod.snd
  have hdata : Keeps Symbol.data t (t.modify id f) := hcontents.map (·.1)
  have hrelocations : Keeps Symbol.relocations t (t.modify id f) := hcontents.map (·.2.2)
  have hextends : Extends d t (t.modify id f) := fun j _ =>
    ⟨hdata.2 j ▸ prefix_rfl, hrelocations.2 j ▸ prefix_rfl⟩
  obtain ⟨asks, hasks⟩ := h.asks
  refine ⟨h.nodup, fun j hj => (size_modify t id f).symm ▸ h.tables j hj, fun e he => ?_,
    fun j hj => ?_, fun j => ?_, (hdata.2 d.relPlt).symm ▸ h.relPlt,
    ⟨asks, asks_of_rel hasks hshell hextends (hcontents.2 d.rel)⟩,
    (hdata.2 d.dynamic).trans h.dynamic⟩
  · exact ((hshell.map Symbol.kind).2 e.2).trans (h.kind e he)
  · exact ((h.filled j hj).congr (hcontents.2 j)).imp fun r hr => hr.keeps himport
  · rw [get_modify]
    split
    · exact hnoted.extends hextends rfl rfl
    · exact (h.noted j).extends hextends rfl rfl

theorem replace (hid : id ∉ d.all) (relocations : List (Relocation SymbolId)) :
    Sound q b d (t.modify id fun s => { s with relocations }) := by
  generalize ht' : (t.modify id fun s => { s with relocations }) = t'
  have hshell : Keeps shell t t' := ht' ▸ .modify rfl
  have himport := hshell.read Symbol.isImport fun _ => rfl
  have hentries : Keeps entriesOf t t' := ht' ▸ .modify rfl
  have hsame : ∀ j ∈ d.all, t'.get j = t.get j := fun j hj =>
    ht' ▸ get_modify_ne fun heq => hid (heq ▸ hj)
  have hextends : Extends d t t' := fun j hj =>
    ⟨hsame j hj ▸ prefix_rfl, hsame j hj ▸ prefix_rfl⟩
  obtain ⟨asks, hasks⟩ := h.asks
  refine ⟨h.nodup, fun j hj => hshell.1.symm ▸ h.tables j hj, fun e he => ?_, fun j hj => ?_,
    fun j => (h.noted j).extends hextends (himport.2 j) (hentries.2 j), ?_,
    ⟨asks, asks_of_rel hasks hshell hextends ?_⟩, ?_⟩
  · exact ((hshell.map Symbol.kind).2 e.2).trans (h.kind e he)
  · rw [hsame j hj]
    exact (h.filled j hj).imp fun r hr => hr.keeps himport
  · rw [hsame d.relPlt (by simp [all])]
    exact h.relPlt
  · rw [hsame d.rel (by simp [all])]
  · rw [hsame d.dynamic (by simp [all])]
    exact h.dynamic

end Sound

end ArmLink.DynamicTables
