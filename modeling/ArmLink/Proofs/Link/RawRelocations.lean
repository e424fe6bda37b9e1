import ArmLink.Proofs.Link.Calls
import ArmLink.Proofs.Link.Tables

/-!
# The values of raw relocations

A raw relocation is lowered to one of the linker's own kinds with another addend, and sometimes
another target, before symbols have addresses; its value is computed once they have. What comes out
is what the ABI prescribes for its type.
-/

namespace ArmLink

open SymbolTable DynamicTables
open Relocation (Kind Outcome)

/-! ## Lowering -/

namespace DynamicTables

open Elf.RelocationType

variable {external : Bool} {owners : List SymbolId} {owner target : SymbolId} {addend : Word64}
  {s s' : Lowering} {outcome : Outcome SymbolId} {type : Nat}

/-- The types of raw relocations whose words do not depend on what is patched. -/
def wordTypes : List Nat := [abs32, rel32, gotOff32, basePrel, gotPrel, gotBrel]

/-- What a raw relocation of a type is lowered to. Distances count from behind the word, and those
to the global offset table are relocations against its symbol. -/
inductive RawOutcome (s : Lowering) (target : SymbolId) (addend : Word64) :
    Nat → Outcome SymbolId → Prop
  | absolute : RawOutcome s target addend abs32 (.pending .absolute (some target) addend)
  | pcRelative : RawOutcome s target addend rel32 (.pending .pcRelative (some target) (addend + 4))
  | gotRelative {d : DynamicTables} (hd : s.1 = some d) :
      RawOutcome s target addend gotOff32 (.pending .gotOffset (some target) addend)
  | gotBase {d : DynamicTables} (hd : s.1 = some d) :
      RawOutcome s target addend basePrel (.pending .pcRelative (some d.got) (addend + 4))
  | slotDistance {d : DynamicTables} {slot : Nat} (hd : s.1 = some d)
      (hslot : (s.2.get target).gotOffset = some slot) :
      RawOutcome s target addend gotPrel
        (.pending .pcRelative (some d.got) (addend + .ofNat 64 slot + 4))
  | slotOffset {d : DynamicTables} {slot : Nat} (hd : s.1 = some d)
      (hslot : (s.2.get target).gotOffset = some slot) :
      RawOutcome s target addend gotBrel (.constant (addend + .ofNat 64 slot))

theorem RawOutcome.evolves (h : RawOutcome s target addend type outcome)
    (hevolves : Evolves owners s s') : RawOutcome s' target addend type outcome := by
  cases hevolves with
  | static =>
    cases h with
    | absolute => exact .absolute
    | pcRelative => exact .pcRelative
    | gotRelative hd | gotBase hd | slotDistance hd | slotOffset hd => cases hd
  | dynamic hgrows =>
    have hgot := got_eq_of_all hgrows.all
    cases h with
    | absolute => exact .absolute
    | pcRelative => exact .pcRelative
    | gotRelative hd => exact .gotRelative rfl
    | gotBase hd =>
      cases hd
      rw [← hgot]
      exact .gotBase rfl
    | slotDistance hd hslot =>
      cases hd
      rw [← hgot]
      exact .slotDistance rfl (hgrows.slot _ _ hslot)
    | slotOffset hd hslot =>
      cases hd
      exact .slotOffset rfl (hgrows.slot _ _ hslot)

theorem RawOutcome.slot (h : RawOutcome s target addend type outcome)
    (htype : type ∈ [gotPrel, gotBrel]) :
    ∃ d slot, s.1 = some d ∧ (s.2.get target).gotOffset = some slot := by
  cases h with
  | slotDistance hd hslot | slotOffset hd hslot => exact ⟨_, _, hd, hslot⟩
  | _ => exact absurd htype (by decide)

theorem rawOutcome_lowerRaw {d? : Option DynamicTables} {t : SymbolTable} {lowered : Lowered}
    (htype : type ∈ wordTypes) (htarget : target < t.size)
    (h : lowerRaw external d? t owner type target addend = .ok lowered) :
    ∃ outcome, lowered.outcome = some outcome ∧
      RawOutcome (lowered.tables, lowered.symbols) target addend type outcome := by
  simp only [wordTypes, List.mem_cons, List.not_mem_nil, or_false] at htype
  rcases htype with rfl | rfl | rfl | rfl | rfl | rfl
  · simp only [lowerRaw, show Arm.Machine.classify? abs32 = some .absolute from rfl] at h
    split at h
    · cases h
    · cases h
      exact ⟨_, rfl, .absolute⟩
  · cases h
    exact ⟨_, rfl, .pcRelative⟩
  · cases d? with
    | none => cases h
    | some d =>
      cases h
      exact ⟨_, rfl, .gotRelative rfl⟩
  · cases d? with
    | none => cases h
    | some d =>
      cases h
      exact ⟨_, rfl, .gotBase rfl⟩
  · cases d? with
    | none => cases h
    | some d =>
      cases h
      exact ⟨_, rfl, .slotDistance rfl (gotOffset_ensureSlot d htarget)⟩
  · cases d? with
    | none => cases h
    | some d =>
      cases h
      exact ⟨_, rfl, .slotOffset rfl (gotOffset_ensureSlot d htarget)⟩

/-- **Raw relocations** of the six types are lowered as they should be. -/
theorem LoweredBetween.raw {r : Relocation SymbolId} {outcome? : Option (Outcome SymbolId)}
    (h : LoweredBetween external owners owner s s' r outcome?) (htype : type ∈ wordTypes)
    (htarget : target < s.2.size) (hr : r.outcome = .pending (.elf type) (some target) addend) :
    ∃ outcome, outcome? = some outcome ∧ RawOutcome s' target addend type outcome := by
  obtain ⟨s₁, lowered, hfirst, hlower, rfl, hlast⟩ := h
  simp only [lowerRelocation, hr] at hlower
  have htarget₁ : target < s₁.2.size := hfirst.shell.1 ▸ htarget
  obtain ⟨outcome, houtcome, hraw⟩ := rawOutcome_lowerRaw htype htarget₁ hlower
  exact ⟨outcome, houtcome, hraw.evolves hlast⟩

end DynamicTables

namespace Link

open Resolve

variable {o : Options} {objects : List Object} {kept u t : SymbolTable} {s s' : Lowering}
  {placed : Placed} {d : DynamicTables} {owner target : SymbolId} {r : Relocation SymbolId}
  {addend : Word64} {x : Settlement} {type : Nat} {outcome : Outcome SymbolId}

/-! ## What the ABI prescribes -/

variable (t owner r)

/-- The place of a relocation, once its owner has an address. -/
def placeOf? : Option Word :=
  (t.get owner).value.map fun base => .ofNat 32 (base + r.offset)

/-- The word that the ABI prescribes for a raw relocation with the addend `a`, from its place, the
address of its target, the address of the global offset table, and the offset of the target's slot
there. -/
def prescribed? (type : Nat) (target : SymbolId) (a : Word) : Option Word :=
  let s? : Option Word := (t.get target).value.map (.ofNat 32)
  let got? : Option Word := (gotAddress t).map (.ofNat 32)
  let slot? : Option Word := (t.get target).gotOffset.map (.ofNat 32)
  let p? : Option Word := placeOf? t owner r
  open Elf.RelocationType in
  if type = abs32 then do return (← s?) + a
  else if type = rel32 then do return (← s?) + a - (← p?)
  else if type = gotOff32 then do return (← s?) + a - (← got?)
  else if type = basePrel then do return (← got?) + a - (← p?)
  else if type = gotPrel then do return (← got?) + (← slot?) + a - (← p?)
  else if type = gotBrel then do return (← slot?) + a
  else none

variable {t owner r}

theorem prescribed?_congr (h : Keeps bare t u) (owner : SymbolId) (r : Relocation SymbolId)
    (type : Nat) (target : SymbolId) (a : Word) :
    prescribed? u owner r type target a = prescribed? t owner r type target a := by
  have hvalue := (h.read Symbol.value fun _ => rfl).2
  have hslot := (h.read Symbol.gotOffset fun _ => rfl).2 target
  simp only [prescribed?, placeOf?, hvalue, hslot, gotAddress_congr h]

/-- The slot of a symbol in the global offset table holds the symbol's address; for an import, an
entry asks the loader to fill it with the address of the symbol with the import's index. -/
structure SlotFilled (kept t : SymbolTable) (target got : SymbolId) (address slot : Nat) :
    Prop where
  /-- a slot of a symbol that is defined here holds its address -/
  holds : (kept.get target).isImport = false → ∃ value, (t.get target).value = some value ∧
    (t.get got).data.slice? slot 4 = some (.ofWord (.ofNat 32 value))
  /-- the relocation of an import's slot names its dynamic symbol; the word has room for the low 24
  bits of the index -/
  named : (kept.get target).isImport = true → ∃ rel k index,
    t.find? Elf.SectionName.rel 0 = some rel ∧ (t.get target).dynamicIndex = some index ∧
    (t.get rel).data.slice? (8 * k) 4 = some (.ofWord (.ofNat 32 (address + slot))) ∧
    (t.get rel).data.slice? (8 * k + 4) 4 = some (.ofWord
      (Elf.RelocationType.info (.ofNat 32 index) (.ofNat 32 Elf.RelocationType.globDat)))

/-- The low half of a distance that counts from behind the patched bytes. -/
theorem narrow_distance {address place size : Nat} :
    (BitVec.ofNat 64 address + addend - (.ofNat 64 place + .ofNat 64 size)).setWidth 32 =
      (.ofNat 32 address + addend.setWidth 32 - (.ofNat 32 place + .ofNat 32 size) : Word) := by
  rw [narrow_sub, narrow_add, narrow_add, narrow_ofNat, narrow_ofNat, narrow_ofNat]

theorem cancel_four (s p : Word) (a : Word64) :
    s + a.setWidth 32 - p = s + (a + 4).setWidth 32 - (p + .ofNat 32 4) := by
  grind

theorem prescribed_of_settle {c : Context} (hinternal : c.external = false)
    (hc : c.got = gotAddress t) (hgot : ∀ d, s.1 = some d → gotAddress t = (t.get d.got).value)
    (hslots : Keeps Symbol.gotOffset s.2 t) (hraw : RawOutcome s target addend type outcome)
    (hsize : r.size = 4) (hsettle : settle c t owner { r with outcome } = .ok x) :
    prescribed? t owner r type target (addend.setWidth 32) = some (x.1.setWidth 32) := by
  cases hraw with
  | absolute =>
    obtain ⟨address, haddress, hx⟩ := value_of_settle hinternal rfl hsettle
    rw [hx, narrow_add, narrow_ofNat]
    simp only [prescribed?, haddress]
    rfl
  | pcRelative =>
    obtain ⟨base, address, hbase, haddress, hx⟩ := value_of_settle_pcRelative hinternal rfl hsettle
    rw [hx, narrow_distance, hsize]
    simp only [prescribed?, placeOf?, haddress, hbase]
    exact congrArg some (cancel_four _ _ _)
  | gotRelative hd =>
    obtain ⟨base, address, hbase, haddress, hx⟩ :=
      machine_of_settle (by decide) hinternal rfl hsettle
    simp only [Arm.Machine.resolve?, hc] at hx
    cases hgotAddress : gotAddress t with
    | none =>
      rw [hgotAddress] at hx
      cases hx
    | some got =>
      rw [hgotAddress] at hx
      rw [← Option.some.inj (Except.ok.inj hx), narrow_sub, narrow_add, narrow_ofNat, narrow_ofNat]
      simp only [prescribed?, haddress, hgotAddress]
      rfl
  | gotBase hd =>
    obtain ⟨base, address, hbase, haddress, hx⟩ := value_of_settle_pcRelative hinternal rfl hsettle
    rw [hx, narrow_distance, hsize]
    simp only [prescribed?, placeOf?, hgot _ hd, haddress, hbase]
    exact congrArg some (cancel_four _ _ _)
  | slotDistance hd hslot =>
    obtain ⟨base, address, hbase, haddress, hx⟩ := value_of_settle_pcRelative hinternal rfl hsettle
    rw [hx, narrow_distance, hsize]
    simp only [prescribed?, placeOf?, hgot _ hd, haddress, hbase, (hslots.2 target).trans hslot]
    refine congrArg some ?_
    rw [← cancel_four, narrow_add, narrow_ofNat, BitVec.add_comm (addend.setWidth 32),
      ← BitVec.add_assoc]
  | slotOffset hd hslot =>
    have hx := value_of_settle_constant rfl hsettle
    rw [hx, narrow_add, narrow_ofNat, BitVec.add_comm]
    simp only [prescribed?, (hslots.2 target).trans hslot]
    rfl

theorem Linked.slotFilled {slot : Nat} (h : Linked o kept placed s s' u t d)
    (himport : (u.get target).isImport = (kept.get target).isImport)
    (hslot : (u.get target).gotOffset = some slot) :
    ∃ address, (placed.table.get d.got).value = some address ∧
      SlotFilled kept placed.table target d.got address slot := by
  have hgot : d.got ∈ d.all := by simp [all]
  obtain ⟨path, hsound⟩ := h.tabled.sound
  cases himported : (kept.get target).isImport with
  | false =>
    have hpatched := h.tabled.reached.slotsPatched target slot (himport.trans himported) hslot
    obtain ⟨address, haddress⟩ := h.value_table hgot hpatched
    obtain ⟨value, hvalue, hslice⟩ := h.word hgot hpatched
    refine ⟨address, haddress, fun _ => ⟨value, hvalue, ?_⟩, fun htrue => ?_⟩
    · rw [hslice]
      exact congrArg (fun w => some (Bytes.ofWord w)) (BitVec.add_zero _)
    · cases himported.symm.trans htrue
  | true =>
    obtain ⟨index, hindex, htold⟩ :=
      (hsound.noted target).slot slot (himport.trans himported) hslot
    obtain ⟨k, base, hbase, haddress, hinfo⟩ := h.entry htold
    have hentries := h.entriesOf_eq target
    simp only [entriesOf, Prod.mk.injEq] at hentries
    refine ⟨base, hbase, fun hfalse => ?_, fun _ => ⟨d.rel, k, index, ?_, ?_, ?_, hinfo⟩⟩
    · cases himported.symm.trans hfalse
    · exact h.found (List.mem_of_getElem? (i := 2) rfl)
    · exact hentries.1.trans hindex
    · rw [haddress, BitVec.ofNat_add]

/-- **Raw relocations.** In a link that no host linker finishes, a raw relocation of one of the six
types that patches a word of a symbol that has a place writes the word that the ABI prescribes,
unless a later relocation patches one of its bytes. Where the word depends on a slot of the global
offset table, the slot gets the address of the target. -/
theorem raw_prescribed {i : Nat} (hkept : collect o objects = .ok kept)
    (h : prepare o objects = .ok placed) (hinternal : o.isExternal = false)
    (howner : isSite (kept.get owner) = true)
    (hr : (kept.get owner).relocations[i]? = some r) (hsize : r.size = 4)
    (houtcome : r.outcome = .pending (.elf type) (some target) addend) (htype : type ∈ wordTypes)
    (htarget : (kept.get target).isDefined = true)
    (hlater : ∀ j r', i < j → (kept.get owner).relocations[j]? = some r' → ¬ Overlap r r') :
    (∃ word, prescribed? placed.table owner r type target (addend.setWidth 32) = some word ∧
      (placed.table.get owner).data.slice? r.offset 4 = some (.ofWord word)) ∧
    (type ∈ [Elf.RelocationType.gotPrel, Elf.RelocationType.gotBrel] → ∃ got address slot,
      placed.table.find? Elf.SectionName.got 0 = some got ∧
      (placed.table.get got).value = some address ∧
      (placed.table.get target).gotOffset = some slot ∧
      SlotFilled kept placed.table target got address slot) := by
  obtain ⟨s, s', u, t, hstaged, happly⟩ := staged_of_prepare hkept h
  obtain ⟨d?, hfinish, hlinked⟩ := hstaged.last happly hkept
  have hstarted := started_of_makeDynamic (collected hkept) hstaged.made
  obtain ⟨outcome?, htraced⟩ := traced_of_stages (collected hkept) hstarted hstaged.lowered hfinish
    hstaged.computed happly howner hr
  have htargetLt : target < s.2.size := by
    obtain ⟨-, hshell, -⟩ := hstarted.defined target htarget
    exact lt_size_of_get (P := (·.isDefined = true))
      ((congrArg Symbol.isDefined hshell).trans htarget) nofun
  obtain ⟨outcome, rfl, hraw⟩ := htraced.lowered.raw htype htargetLt houtcome
  obtain ⟨x, hsettle, hslice⟩ := htraced.settled outcome rfl
  constructor
  · refine ⟨x.1.setWidth 32, ?_, ?_⟩
    · rw [prescribed?_congr htraced.applied]
      refine prescribed_of_settle hinternal rfl (fun d hd => (hlinked d hd).gotAddress_eq) ?_ hraw
        hsize hsettle
      exact htraced.computed.map Symbol.gotOffset
    · rw [← hsize, hslice hlater, hsize]
      exact congrArg some (Bytes.ofNat_eq_ofWord x.1)
  · intro hslotType
    obtain ⟨d, slot, hd, hslot⟩ := hraw.slot hslotType
    have hlinked := hlinked d hd
    have himports := htraced.evolves.shell.read Symbol.isImport fun _ => rfl
    obtain ⟨address, haddress, hfilled⟩ :=
      hlinked.slotFilled ((himports.2 target).trans (hstarted.imports target)) hslot
    have hentries := hlinked.entriesOf_eq target
    simp only [entriesOf, Prod.mk.injEq] at hentries
    exact ⟨d.got, address, slot, hlinked.found (List.mem_of_getElem? (i := 3) rfl), haddress,
      hentries.2.2.2.trans hslot, hfilled⟩

/-- A program with a raw relocation of each of the six types; one wants the slot of an import. -/
def rawSample : List Object :=
  open Elf.RelocationType in
  [{ path := "a"
     symbols :=
       [programCode (Bytes.zeros 24)
          [.pending 0 4 (.elf abs32) (some "table") 8,
           .pending 4 4 (.elf rel32) (some "table") 0,
           .pending 8 4 (.elf gotOff32) (some "table") 4,
           .pending 12 4 (.elf basePrel) (some "table") 0,
           .pending 16 4 (.elf gotPrel) (some "puts") 12,
           .pending 20 4 (.elf gotBrel) (some "table") 0],
        programTable "table" 16 [] []]
     imports := [{ name := "puts" }] }]

theorem raw_prescribed_sample : ∃ kept placed r,
    collect callOptions rawSample = .ok kept ∧ prepare callOptions rawSample = .ok placed ∧
      callOptions.isExternal = false ∧ isSite (kept.get 19) = true ∧
      (kept.get 19).relocations[4]? = some r ∧ (kept.get 21).isImport = true ∧
      (∃ word, prescribed? placed.table 19 r Elf.RelocationType.gotPrel 21 12 = some word ∧
        (placed.table.get 19).data.slice? 16 4 = some (.ofWord word)) ∧
      ∃ got address slot, placed.table.find? Elf.SectionName.got 0 = some got ∧
        (placed.table.get got).value = some address ∧
        (placed.table.get 21).gotOffset = some slot ∧
        SlotFilled kept placed.table 21 got address slot := by
  obtain ⟨kept, hkept, ⟨placed, hplaced⟩, hsite, himport, hlength, hr, hlast⟩ :
      ∃ kept, collect callOptions rawSample = .ok kept ∧
        (∃ placed, prepare callOptions rawSample = .ok placed) ∧
        isSite (kept.get 19) = true ∧ (kept.get 21).isImport = true ∧
        (kept.get 19).relocations.length = 6 ∧ (kept.get 19).relocations[4]? =
          some (.pending 16 4 (.elf Elf.RelocationType.gotPrel) (some 21) 12) ∧
        (kept.get 19).relocations[5]?.map (·.offset) = some 20 := by
    decide +kernel
  have hdefined : (kept.get 21).isDefined = true := by
    rw [Symbol.isDefined, show (kept.get 21).kind = .dynamicImport from of_decide_eq_true himport]
    rfl
  have hlater : ∀ j r', 4 < j → (kept.get 19).relocations[j]? = some r' →
      ¬ Overlap (.pending 16 4 (.elf Elf.RelocationType.gotPrel) (some 21) 12) r' := by
    intro j r' hj hr' hoverlap
    obtain ⟨hlt, -⟩ := List.getElem?_eq_some_iff.mp hr'
    obtain rfl : j = 5 := by omega
    rw [hr'] at hlast
    simp only [Overlap, Relocation.stop, Relocation.pending, Option.map_some,
      Option.some.injEq] at hoverlap hlast
    omega
  obtain ⟨hword, hslot⟩ :=
    raw_prescribed hkept hplaced rfl hsite hr rfl rfl (by decide) hdefined hlater
  exact ⟨kept, placed, _, hkept, hplaced, rfl, hsite, hr, himport, hword, hslot (by decide)⟩

end Link

end ArmLink
