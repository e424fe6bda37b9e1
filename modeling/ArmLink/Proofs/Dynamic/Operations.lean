import ArmLink.Proofs.Dynamic.Sound

/-!
# Operations leave the tables of the dynamic loader sound

Every operation is made of the changes that leave the tables sound, so whatever was noted at a
symbol stands in the tables from setting them up until they are completed.
-/

namespace ArmLink.DynamicTables

open SymbolTable List
open Relocation (Kind)

variable {d : DynamicTables} {t t' : SymbolTable} {id : SymbolId} {q : SymbolId → Nat → Prop}
  {s : Symbol}

namespace Sound

variable {b : Bytes}

/-! ## Names and indices -/

variable (h : Sound q b d t)
include h

theorem addName (name : String) : Sound q b (d.addName t name).2.1 (d.addName t name).2.2 := by
  simp only [DynamicTables.addName]
  split
  · exact h
  · have hextended := h.extendPlain d.dynStr (f := fun s =>
      (s.append (Bytes.ofString name)).append [0]) (by simp) ((Grown.append ..).trans (.append ..))
    exact hextended.record rfl rfl

theorem addLibrary (library? : Option String) :
    Sound q b (d.addLibrary t library?).1 (d.addLibrary t library?).2 := by
  cases library? with
  | none => exact h
  | some library =>
    simp only [DynamicTables.addLibrary, addNeeded]
    split
    · exact h
    · have hnoted : Sound q b { d with neededNames := library :: d.neededNames } t :=
        h.record rfl rfl
      exact (hnoted.addName library).record rfl rfl

/-- A symbol without an index has neither a stub nor a slot that the loader fills, so an index does
not conflict with what the tables say. -/
theorem enter {offset index : Nat} (hnone : (t.get id).dynamicIndex = none) :
    Sound q b d (d.enter t id offset index) := by
  have hgrown : Grown (NoImport t) (t.get d.dynSym)
      (appendEntry (t.get d.dynSym) id (t.get id) offset) :=
    .appendEntry _ (fun himport => himport) offset
  have hextended := h.extendPlain d.dynSym
    (f := fun entry => appendEntry entry id (t.get id) offset) (by simp) hgrown
  have hindex : Keeps Symbol.dynamicIndex t
      (t.modify d.dynSym fun entry => appendEntry entry id (t.get id) offset) :=
    .modify (congrArg (fun x => x.2.1) hgrown.kept)
  have hnone' := (hindex.2 id).trans hnone
  have hnoted := hextended.noted id
  refine hextended.note (fun _ => rfl) ⟨fun slot himport hslot => ?_, fun stub hstub => ?_⟩
  · obtain ⟨_, hsome, -⟩ := hnoted.slot slot himport hslot
    cases hnone'.symm.trans hsome
  · obtain ⟨_, _, -, hsome, -⟩ := hnoted.stub stub hstub
    cases hnone'.symm.trans hsome

theorem ensureIndex (id : SymbolId) :
    Sound q b (d.ensureIndex t id).2.1 (d.ensureIndex t id).2.2 := by
  cases hnone : (t.get id).dynamicIndex with
  | some index =>
    simp only [DynamicTables.ensureIndex, hnone]
    exact h
  | none =>
    have hcounted : Sound q b { d with count := d.count + 1 } t := h.record rfl rfl
    have hnamed := hcounted.addName (t.get id).dynamicName
    have hindex := ((entriesOf_addName { d with count := d.count + 1 } t
      (t.get id).dynamicName).map (·.1)).2 id
    rcases hadd :
      DynamicTables.addName { d with count := d.count + 1 } t (t.get id).dynamicName with
      ⟨offset, d₁, t₁⟩
    rw [hadd] at hnamed hindex
    rw [ensureIndex_of_none hnone hadd]
    exact (hnamed.enter (hindex.trans hnone)).addLibrary _

theorem exportSymbols : Sound q b (d.exportSymbols t).1 (d.exportSymbols t).2 :=
  foldl_induction (P := fun s : DynamicTables × SymbolTable => Sound q b s.1 s.2) h
    fun _ id _ hs => hs.ensureIndex id

omit h

end Sound

/-! ## Stubs and slots -/

theorem lt_size_of_isImport (h : (t.get id).isImport = true) : id < t.size :=
  lt_size_of_get (P := (·.isImport = true)) h nofun

theorem dynamicIndex_ensureIndex (d : DynamicTables) (hid : id < t.size) :
    ((d.ensureIndex t id).2.2.get id).dynamicIndex = some (d.ensureIndex t id).1 := by
  cases hnone : (t.get id).dynamicIndex with
  | some index => simp only [ensureIndex, hnone]
  | none =>
    have hsize := (entriesOf_addName { d with count := d.count + 1 } t
      (t.get id).dynamicName).1
    rcases hadd : addName { d with count := d.count + 1 } t (t.get id).dynamicName with
      ⟨offset, d₁, t₁⟩
    rw [hadd] at hsize
    rw [ensureIndex_of_none hnone hadd]
    refine (((entriesOf_addLibrary d₁ _ _).map (·.1)).2 id).trans ?_
    rw [enter, get_modify_self (by rwa [size_modify, hsize])]
    rfl

namespace Sound

variable {b : Bytes}

variable (h : Sound q b d t)
include h

theorem fillStub (slot index : Nat) : Sound q b d (d.fillStub t slot index) := by
  have himport (t' : SymbolTable) (h' : Sound q b d t') :
      (t'.get d.plt).isImport = false ∧ (t'.get d.gotPlt).isImport = false :=
    ⟨h'.isImport_table (by simp [all]), h'.isImport_table (by simp [all])⟩
  have hslot := h.extendPlain d.gotPlt (f := (·.appendPatched .absolute d.plt 0)) (by simp)
    (.appendPatched _ .absolute absolute_ne_elf (himport t h).1 0)
  have hcode := hslot.extendPlain d.plt (by simp) (grown_stubCode (himport _ hslot).2 slot _)
  have hentry := hcode.extend d.relPlt (f := d.slotEntry slot index) (by simp [all])
    (ne_of_all h.nodup 7 2 rfl rfl (by decide)) (.appendRel _ (himport _ hcode).2 slot index
      Elf.RelocationType.jumpSlot) fun _ => ?_
  · rwa [if_neg (ne_of_all h.nodup 7 8 rfl rfl (by decide))] at hentry
  · simp only [slotEntry, length_data_appendWord, length_data_appendPatched]
    have hrelPlt := hcode.relPlt
    omega

theorem told_fillStub (slot index : Nat) :
    Told (d.fillStub t slot index) d.relPlt d.gotPlt slot index Elf.RelocationType.jumpSlot := by
  refine told_appendRel ?_ ?_
  · simpa only [size_modify] using h.tables d.relPlt (by simp [all])
  · rw [get_modify_ne (ne_of_all h.nodup 7 6 rfl rfl (by decide)),
      get_modify_ne (ne_of_all h.nodup 7 5 rfl rfl (by decide))]
    exact h.relPlt

theorem stubWords_mem (slot index : Nat) {r : Relocation SymbolId}
    (hr : r ∈ d.stubWords (t.get d.plt).size slot) :
    r ∈ ((d.fillStub t slot index).get d.plt).relocations := by
  obtain ⟨-, hplt, -⟩ := get_fillStub h.nodup h.tables slot index
  rw [(h.filled d.plt (by simp [all])).size] at hr
  rw [hplt]
  simp only [stubWords, mem_cons, not_mem_nil, or_false] at hr
  simp only [stubCode, Symbol.appendPatched, Symbol.appendWord, Symbol.append,
    length_append, Bytes.length_ofWord, mem_append, mem_singleton, or_assoc]
  exact .inr hr

/-- A symbol with an index may be given the stub that is then there. -/
theorem noted_fillStub {slot index : Nat} (hindex : (t.get id).dynamicIndex = some index)
    (hslot : slot = (t.get d.gotPlt).data.length) : Noted d (d.fillStub t slot index)
      { (d.fillStub t slot index).get id with
        pltOffset := some (t.get d.plt).size, gotPltOffset := some slot } := by
  obtain ⟨hgotPlt, -, -⟩ := get_fillStub h.nodup h.tables slot index
  have hentries := (frame_fillStub h.nodup t slot index).entries
  have hnoted := (h.fillStub slot index).noted id
  have htold := h.told_fillStub slot index
  have hwords (r : Relocation SymbolId) := h.stubWords_mem slot index (r := r)
  generalize d.fillStub t slot index = t₁ at hgotPlt hentries hnoted htold hwords ⊢
  refine ⟨hnoted.slot, fun stub hstub => ?_⟩
  obtain rfl := Option.some.inj hstub
  refine ⟨slot, index, rfl, ((hentries.map (·.1)).2 id).trans hindex, hwords, ?_, htold⟩
  rw [hgotPlt, hslot]
  exact mem_append_right _ mem_cons_self

theorem ensureStub (hid : id < t.size) :
    Sound q b (d.ensureStub t id).2.1 (d.ensureStub t id).2.2 := by
  cases hnone : (t.get id).pltOffset with
  | some stub =>
    simp only [DynamicTables.ensureStub, hnone]
    exact h
  | none =>
    have h₁ := h.ensureIndex id
    have hindex := dynamicIndex_ensureIndex d hid
    rcases hfound : d.ensureIndex t id with ⟨index, d₁, t₁⟩
    simp only [hfound] at h₁ hindex
    rw [ensureStub_of_none (ne_of_all h₁.nodup 6 5 rfl rfl (by decide)) hnone hfound]
    exact (h₁.fillStub _ index).note (fun _ => rfl) (h₁.noted_fillStub hindex rfl)

theorem fillSlot (id : SymbolId) (index : Nat) :
    let filled := d.fillSlot t id (t.get d.got).data.length (some index)
    Sound q b d filled ∧
      Told filled d.rel d.got (t.get d.got).data.length index Elf.RelocationType.globDat := by
  have hword := h.extendPlain (f := (·.appendWord 0)) d.got (by simp) (.appendWord _ 0)
  have hlength : ((t.modify d.got (·.appendWord 0)).get d.got).data.length =
      (t.get d.got).data.length + 4 := by
    rw [get_modify_self (h.tables d.got (by simp [all])), length_data_appendWord]
  obtain ⟨asks, hasks⟩ := hword.asks
  exact ⟨hword.askSlot (Nat.le_of_eq hlength.symm) index _,
    told_appendRel (hword.tables d.rel (by simp [all])) ⟨_, hasks.length⟩⟩

theorem ensureSlot (id : SymbolId) : Sound q b (d.ensureSlot t id).2.1 (d.ensureSlot t id).2.2 := by
  cases hnone : (t.get id).gotOffset with
  | some slot =>
    simp only [DynamicTables.ensureSlot, hnone]
    exact h
  | none =>
    cases himport : (t.get id).isImport with
    | false =>
      rw [ensureSlot_of_not_import hnone himport]
      have hfilled := h.extendPlain (f := (·.appendPatched .absolute id 0)) d.got (by simp)
        (.appendPatched _ .absolute absolute_ne_elf himport 0)
      have hstill : Keeps Symbol.isImport t (t.modify d.got (·.appendPatched .absolute id 0)) :=
        .modify rfl
      refine hfilled.note (fun _ => rfl) ⟨fun slot himport' => ?_, (hfilled.noted id).stub⟩
      cases ((hstill.2 id).trans himport).symm.trans himport'
    | true =>
      have h₁ := h.ensureIndex id
      have hindex := dynamicIndex_ensureIndex d (lt_size_of_isImport himport)
      rcases hfound : d.ensureIndex t id with ⟨index, d₁, t₁⟩
      simp only [hfound] at h₁ hindex
      rw [ensureSlot_of_import hnone himport hfound]
      obtain ⟨hfilled, htold⟩ := h₁.fillSlot id index
      have hentries := (frame_fillSlot h₁.nodup t₁ id (t₁.get d₁.got).data.length
        (some index)).entries
      generalize d₁.fillSlot t₁ id _ (some index) = t₂ at hfilled htold hentries ⊢
      refine hfilled.note (fun _ => rfl) ⟨fun slot _ hslot => ?_, (hfilled.noted id).stub⟩
      obtain rfl := Option.some.inj hslot
      exact ⟨index, ((hentries.map (·.1)).2 id).trans hindex, htold⟩

theorem perform {call : Call} (hvalid : call.Valid t) :
    Sound q b (perform call (d, t)).2.1 (perform call (d, t)).2.2 := by
  cases call with
  | index id => exact h.ensureIndex id
  | stub id => exact h.ensureStub hvalid.1
  | slot id => exact h.ensureSlot id
  | need library => exact h.addLibrary (some library)
  | exports => exact h.exportSymbols

end Sound

/-! ## From the start to the end -/

/-- A request that is about symbols of a table is about symbols of what has become of it. -/
theorem Call.Valid.keeps {call : Call} (h : call.Valid t) (hkeeps : Keeps shell t t') :
    call.Valid t' := by
  cases call with
  | index id => exact Nat.lt_of_lt_of_eq h hkeeps.1.symm
  | stub id =>
    exact ⟨Nat.lt_of_lt_of_eq h.1 hkeeps.1.symm, ((hkeeps.map Symbol.isImport).2 id).trans h.2⟩
  | slot id => exact Nat.lt_of_lt_of_eq h hkeeps.1.symm
  | need | exports => trivial

theorem sound_of_setup (hfresh : ∀ id, Fresh (t.get id)) (hsetup : setup t = .ok (d, t')) :
    Sound q [] d t' := by
  have hholds := (consistent_of_setup hfresh hsetup).holds
  have hkind := (setup_ok hsetup).kind
  have hfirst := firstContents_of_setup hfresh hsetup
  obtain ⟨-, -, -, -, -, htextRel⟩ := setup_made hsetup
  have hgotPlt : (t'.get d.gotPlt).isImport = false := by
    rw [Symbol.isImport, hkind (_, d.gotPlt) (mem_of_getElem? (i := 5) rfl)]
    rfl
  have hrel := hfirst.others d.rel (by simp)
  have hdynamic := hfirst.others d.dynamic (by simp)
  simp only [contents, Prod.mk.injEq] at hrel hdynamic
  refine ⟨hholds.nodup, hholds.tables, hkind,
    fun id hid => hfirst.filled ⟨_, _, _, rfl, fun _ => by simp, hgotPlt⟩ hid,
    fun id => ⟨fun slot _ hslot => ?_, fun stub hstub => ?_⟩, ⟨_, hholds.stubs.relPlt⟩,
    ⟨[], ?_, ?_, (by simp), ?_⟩, hdynamic.1⟩
  · rw [hholds.slots.offset.none_of_not_mem not_mem_nil] at hslot
    cases hslot
  · rw [hholds.stubs.offset.none_of_not_mem not_mem_nil] at hstub
    cases hstub
  · exact hrel.2.2
  · rw [hrel.1]
    rfl
  · simp [htextRel]

namespace Sound

variable {b : Bytes}

theorem run {calls : List Call} (h : Sound q b d t) (hvalid : ∀ call ∈ calls, call.Valid t) :
    Sound q b (run calls (d, t)).1 (run calls (d, t)).2 := by
  refine (foldl_induction (P := fun s : DynamicTables × SymbolTable =>
    Sound q b s.1 s.2 ∧ Keeps shell t s.2) ⟨h, .refl t⟩ fun s call hcall hs => ⟨?_, ?_⟩).1
  · exact hs.1.perform ((hvalid call hcall).keeps hs.2)
  · exact hs.2.trans (steps_perform call s).fixed.2

theorem addRelative (h : Sound q b d t) (hq : ∀ x ∈ movingWords d t, q x.1 x.2.offset) :
    Sound q b (d.addRelative t).1 (d.addRelative t).2 := by
  rw [addRelative_eq]
  refine (foldl_induction (P := fun s : DynamicTables × SymbolTable =>
    Sound q b s.1 s.2 ∧ Asked d t s) ⟨h, rfl, .refl t, fun _ _ => rfl⟩ fun s x hx hs =>
      ⟨hs.1.ask ?_ (.inr (hq x hx)) 0 _, hs.2.step x⟩).1
  have himport := hs.2.shell.read Symbol.isImport fun _ => rfl
  exact (himport.2 x.1).trans (isImport_of_isPlaced (mem_movingWords.mp hx).2.placed)

end Sound

/-! ## Lowering -/

/-- During lowering, the tables are sound if there are any. -/
def SoundLowering (q : SymbolId → Nat → Prop) (b : Bytes) (s : Lowering) : Prop :=
  ∀ d, s.1 = some d → Sound q b d s.2

section Lowering

variable {b : Bytes} {external : Bool} {owner : SymbolId} {r : Relocation SymbolId}
  {lowered : Lowered} {d? : Option DynamicTables}

theorem SoundLowering.some (h : Sound q b d t) : SoundLowering q b (some d, t) := by
  rintro _ ⟨⟩
  exact h

theorem soundLowering_lowerRelocation (hs : SoundLowering q b (d?, t))
    (hq : ∀ target addend, r.outcome = .pending .absolute (some target) addend →
      (t.get owner).kind.isWritable = true → r.size = 4 → q owner r.offset)
    (h : lowerRelocation external d? t owner r = .ok lowered) :
    SoundLowering q b (lowered.tables, lowered.symbols) := by
  cases way_of_lowerRelocation h with
  | gone | kept | own | base => exact hs
  | stub _ himport => exact .some ((hs _ rfl).ensureStub (lt_size_of_isImport himport))
  | slot => exact .some ((hs _ rfl).ensureSlot _)
  | @patch d target addend index hr hwritable hsize =>
    have hkind := (grows_ensureIndex [] d t target).shell.map Symbol.kind
    refine .some (((hs d rfl).ensureIndex target).ask ?_ (.inr (hq _ _ hr hwritable hsize)) _ _)
    -- what may be written has a place
    refine isImport_of_isPlaced ?_
    rw [show ((d.ensureIndex t target).2.2.get owner).kind = (t.get owner).kind
      from hkind.2 owner]
    cases hkind' : (t.get owner).kind <;> simp_all [SymbolKind.isWritable, SymbolKind.isPlaced]

/-- A relocation fills a word of a writable symbol with an address. -/
structure FillsWord (t : SymbolTable) (owner : SymbolId) (r : Relocation SymbolId) : Prop where
  reachable : (t.get owner).reachable = true
  writable : (t.get owner).kind.isWritable = true
  mem : r ∈ (t.get owner).relocations
  size : r.size = 4
  absolute : ∃ target addend, r.outcome = .pending .absolute (some target) addend

/-- **Lowering** leaves the tables sound, if the loader may be asked for words of writable symbols.
-/
theorem soundLowering_lower {s' : Lowering} (hs : SoundLowering q b (d?, t))
    (hq : ∀ owner r, owner ∉ tables d? → FillsWord t owner r → q owner r.offset)
    (h : lower external d? t = .ok s') : SoundLowering q b s' := by
  refine lower_induction hs ?_ ?_ h
  · intro s owner r lowered howner hreach hr hshell hs hlower
    refine soundLowering_lowerRelocation hs
      (fun target addend habsolute hwritable hsize => ?_) hlower
    refine hq owner r howner ⟨hreach, ?_, hr, hsize, target, addend, habsolute⟩
    rwa [← show (s.2.get owner).kind = (t.get owner).kind from (hshell.map Symbol.kind).2 owner]
  · rintro ⟨d?, t'⟩ owner relocations howner hs d rfl
    exact (hs d rfl).replace howner relocations

end Lowering

/-! ## Completing the tables -/

/-- The bytes of an entry of the dynamic section, before addresses are known. -/
def Entry.bytes : Entry → Bytes
  | number tag value => Bytes.ofWord (.ofNat 32 tag) ++ Bytes.ofWord (.ofNat 32 value)
  | address tag _ | size tag _ => Bytes.ofWord (.ofNat 32 tag) ++ Bytes.ofWord 0

theorem Entry.length_bytes (e : Entry) : e.bytes.length = 8 := by
  cases e <;> rfl

theorem Entry.data_append {e : Entry} : (e.append s).data = s.data ++ e.bytes := by
  cases e <;> exact append_assoc ..

theorem Entry.data_foldl {entries : List Entry} :
    (entries.foldl Entry.append s).data = s.data ++ entries.flatMap Entry.bytes := by
  induction entries generalizing s with
  | nil => exact (append_nil _).symm
  | cons e entries ih =>
    rw [foldl_cons, ih, Entry.data_append, flatMap_cons, append_assoc]

/-- A relocation of the dynamic section patches no tag of an entry. -/
def SparesTags (r : Relocation SymbolId) : Prop := ∀ k, r.stop ≤ 8 * k ∨ 8 * k + 4 ≤ r.offset

theorem Entry.sparesTags_foldl (entries : List Entry) (hlength : 8 ∣ s.data.length)
    (h : ∀ r ∈ s.relocations, SparesTags r) :
    ∀ r ∈ (entries.foldl Entry.append s).relocations, SparesTags r := by
  suffices hfold : 8 ∣ (entries.foldl Entry.append s).data.length ∧
      ∀ r ∈ (entries.foldl Entry.append s).relocations, SparesTags r from hfold.2
  refine foldl_induction
    (P := fun s : Symbol => 8 ∣ s.data.length ∧ ∀ r ∈ s.relocations, SparesTags r) ⟨hlength, h⟩ ?_
  rintro s e - ⟨⟨n, hn⟩, hs⟩
  have hpatched (w : Word) (kind : Kind) (table : SymbolId) :
      ∀ r ∈ ((s.appendWord w).appendPatched kind table 0).relocations, SparesTags r := by
    intro r hr
    rcases mem_append.mp hr with hr | hr
    · exact hs r hr
    · intro k
      simp only [mem_singleton.mp hr, Relocation.pending, Relocation.stop, Symbol.appendWord,
        Symbol.append, length_append, Bytes.length_ofWord]
      omega
  refine ⟨?_, ?_⟩
  · rw [Entry.data_append, length_append, Entry.length_bytes]
    omega
  · cases e with
    | number tag value => exact hs
    | address tag table => exact hpatched _ .absolute table
    | size tag table => exact hpatched _ .size table

/-- Completing the tables puts the dynamic section into its place. -/
theorem Sound.finish (h : Sound q [] d t) (runPath : Option String) :
    (∃ path : Option Nat, Sound q (((d.finish t runPath).1.entries path).flatMap Entry.bytes)
      (d.finish t runPath).1 (d.finish t runPath).2) ∧
    ∀ r ∈ ((d.finish t runPath).2.get (d.finish t runPath).1.dynamic).relocations,
      SparesTags r := by
  have hsection {d : DynamicTables} {t : SymbolTable} (h : Sound q [] d t) (path : Option Nat) :
      Sound q ((d.entries path).flatMap Entry.bytes) d
        (t.modify d.dynamic fun s => (d.entries path).foldl Entry.append s) := by
    have hgrown : Grown (NoImport t) (t.get d.dynamic)
        ((d.entries path).foldl Entry.append (t.get d.dynamic)) :=
      .entries _ fun e he tag table htable => h.isImport_table (mem_all_of_mem_entries he htable)
    have hextended := h.extend (f := fun s => (d.entries path).foldl Entry.append s) d.dynamic
      (by simp [all]) (ne_of_all h.nodup 8 2 rfl rfl (by decide)) hgrown fun heq =>
        absurd heq (ne_of_all h.nodup 8 7 rfl rfl (by decide))
    rwa [if_pos rfl, Entry.data_foldl, h.dynamic, nil_append] at hextended
  have htags {d : DynamicTables} {t : SymbolTable} (h : Sound q [] d t) (path : Option Nat) :
      ∀ r ∈ ((t.modify d.dynamic fun s => (d.entries path).foldl Entry.append s).get
        d.dynamic).relocations, SparesTags r := by
    have hdynamic : d.dynamic ∈ d.all := by simp [all]
    rw [get_modify_self (h.tables _ hdynamic)]
    refine Entry.sparesTags_foldl _ (h.dynamic ▸ Nat.dvd_zero 8) fun r hr k => .inl ?_
    -- nothing was patched in an empty section
    have hstop := (h.filled _ hdynamic).stop r hr
    rw [h.dynamic] at hstop
    exact Nat.le_trans hstop (Nat.zero_le _)
  have hhash : Sound q [] d (d.writeHash t) := h.extendPlain d.hash (by simp) (.append ..)
  cases runPath with
  | none => exact ⟨⟨none, hsection hhash none⟩, htags hhash none⟩
  | some path => exact ⟨⟨_, hsection (hhash.addName path) _⟩, htags (hhash.addName path) _⟩

end ArmLink.DynamicTables
