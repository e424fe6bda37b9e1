import ArmLink.Proofs.Dynamic.Consistency

/-!
# What the dynamic loader reads from its tables

The loader sees bytes: it finds the name of a dynamic symbol by an offset in its entry, and what a
stub is for by the information word of a relocation. As long as the numbers fit those words, what it
reads is what was asked for.
-/

namespace ArmLink.DynamicTables

open SymbolTable List

variable {d d' : DynamicTables} {t t' t₀ : SymbolTable} {l : Ledger}

/-- Index and type are read back from an information word. -/
theorem toNat_info {symbol type : Nat} (hsymbol : symbol < 2 ^ 24) (htype : type < 256) :
    (Elf.RelocationType.info (.ofNat 32 symbol) (.ofNat 32 type)).toNat = 256 * symbol + type := by
  have hlow : type &&& 255 = type := by
    rw [show 255 = 2 ^ 8 - 1 from rfl, Nat.and_two_pow_sub_one_eq_mod]
    exact Nat.mod_eq_of_lt htype
  have hhigh : symbol <<< 8 = 2 ^ 8 * symbol := by
    rw [Nat.shiftLeft_eq, Nat.mul_comm]
  have hor : 2 ^ 8 * symbol + type = 2 ^ 8 * symbol ||| type :=
    Nat.two_pow_add_eq_or_of_lt htype symbol
  simp only [Elf.RelocationType.info, BitVec.toNat_or, BitVec.toNat_shiftLeft, BitVec.toNat_and,
    BitVec.toNat_ofNat]
  rw [Nat.mod_eq_of_lt (show symbol < 2 ^ 32 by omega),
    Nat.mod_eq_of_lt (show type < 2 ^ 32 by omega), hhigh,
    Nat.mod_eq_of_lt (show 2 ^ 8 * symbol < 2 ^ 32 by omega),
    show BitVec.toNat (255 : Word) = 255 from rfl, hlow, ← hor]
  rfl

/-- The loader reads from the tables what the ledger says. -/
structure Tabulated (d : DynamicTables) (t : SymbolTable) (l : Ledger) : Prop where
  sized : Sized d t
  /-- the dynamic symbol table has an entry for each dynamic symbol and the null symbol -/
  dynSym : (t.get d.dynSym).data.length = 16 * d.count
  index_iff : ∀ i, (∃ id, (t.get id).dynamicIndex = some i) ↔ 0 < i ∧ i < d.count
  index_inj : ∀ i id id', (t.get id).dynamicIndex = some i → (t.get id').dynamicIndex = some i →
    id = id'
  name : ∀ id i, (t.get id).dynamicIndex = some i → ∃ offset,
    Bytes.wordAt? (t.get d.dynSym).data (16 * i) = some offset ∧
      IsNameAt (t.get d.dynStr).data offset (t.get id).dynamicName
  stub_iff : ∀ id, (t.get id).pltOffset.isSome ↔ id ∈ l.stubs
  stubs_nodup : l.stubs.Nodup
  plt : (t.get d.plt).data.length = 20 + 12 * l.stubs.length
  gotPlt : (t.get d.gotPlt).data.length = 12 + 4 * l.stubs.length
  relPlt : (t.get d.relPlt).data.length = 8 * l.stubs.length
  /-- the three are found by the position in the order of requests: the relocation patches the slot
  and names the import -/
  stub : ∀ k id, l.stubs[k]? = some id →
    (t.get id).pltOffset = some (20 + 12 * k) ∧ (t.get id).gotPltOffset = some (12 + 4 * k) ∧
      (t.get d.relPlt).relocations[k]? =
        some (.pending (8 * k) 4 .absolute (some d.gotPlt) (.ofNat 64 (12 + 4 * k))) ∧
      ∃ i, (t.get id).dynamicIndex = some i ∧
        Bytes.wordAt? (t.get d.relPlt).data (8 * k + 4) =
          some (256 * i + Elf.RelocationType.jumpSlot)
  slot_iff : ∀ offset, (∃ id, (t.get id).gotOffset = some offset) ↔
    4 ∣ offset ∧ offset < (t.get d.got).data.length
  slot_inj : ∀ offset id id', (t.get id).gotOffset = some offset →
    (t.get id').gotOffset = some offset → id = id'
  got : (t.get d.got).data.length = 4 * l.slots.length
  /-- each library that was asked for is noted once, by the offset of its name -/
  needed : Forall₂ (fun offset library => IsNameAt (t.get d.dynStr).data offset library)
    d.needed l.libraries
  libraries_nodup : l.libraries.Nodup

/-- No two symbols have been given one number. -/
theorem Assigned.injective {read : Symbol → Option Nat} {place : Nat → Nat} {ids : List SymbolId}
    (h : Assigned read place ids t) (hplace : ∀ j k, place j = place k → j = k) {n : Nat}
    {id id' : SymbolId} (hid : read (t.get id) = some n) (hid' : read (t.get id') = some n) :
    id = id' := by
  obtain ⟨k, hk, rfl⟩ := (h.read_iff id n).mp hid
  obtain ⟨k', hk', heq⟩ := (h.read_iff id' _).mp hid'
  obtain rfl := hplace k k' heq
  exact Option.some.inj (hk.symm.trans hk')

theorem IsNameAt.lt_length {data : Bytes} {offset : Nat} {name : String}
    (h : IsNameAt data offset name) : offset < data.length := by
  obtain ⟨hle, -⟩ := Bytes.slice?_eq_some.mp h
  omega

/-- What the loader reads from consistent tables, as long as the numbers fit. -/
theorem Consistent.tabulated (h : Consistent t₀ d t l)
    (hnames : (t.get d.dynStr).data.length ≤ 2 ^ 32) (hcount : d.count ≤ 2 ^ 24) :
    Tabulated d t l := by
  obtain ⟨⟨-, -, hsized, -, hindexed, hstubs, hslots, hlibraries⟩, hcounted, -, -⟩ := h
  refine ⟨hsized, hcounted ▸ hindexed.length, fun i => ⟨?_, ?_⟩, fun i id id' => ?_, ?_,
    fun id => ⟨fun hsome => ?_, hstubs.offset.isSome_of_mem⟩, hstubs.offset.nodup, hstubs.plt,
    hstubs.gotPlt, hstubs.relPlt, ?_, fun offset => ⟨?_, ?_⟩, fun offset id id' => ?_,
    hslots.length, hlibraries.offsets, hlibraries.nodup⟩
  · rintro ⟨id, hid⟩
    obtain ⟨k, hk, rfl⟩ := (hindexed.index.read_iff id i).mp hid
    have hlt := (List.getElem?_eq_some_iff.mp hk).1
    omega
  · rintro ⟨hpos, hlt⟩
    have hlt' : i - 1 < l.indexed.length := by omega
    refine ⟨l.indexed[i - 1], (hindexed.index.read_iff _ i).mpr ⟨i - 1, ?_, by omega⟩⟩
    exact getElem?_eq_getElem hlt'
  · exact hindexed.index.injective fun j k heq => Nat.succ.inj heq
  · intro id i hid
    obtain ⟨k, hk, rfl⟩ := (hindexed.index.read_iff id i).mp hid
    obtain ⟨offset, hslice, hname⟩ := hindexed.entry k id hk
    refine ⟨offset, ?_, hname⟩
    have hlt := hname.lt_length
    rw [Bytes.wordAt?_eq_some hslice, BitVec.toNat_ofNat, Nat.mod_eq_of_lt (by omega)]
  · obtain ⟨stub, hstub⟩ := Option.isSome_iff_exists.mp hsome
    exact hstubs.offset.mem_of_some hstub
  · intro k id hk
    obtain ⟨j, hj, hslice⟩ := hstubs.entry k id hk
    have hlt := (List.getElem?_eq_some_iff.mp hk).1
    have hlt' := (List.getElem?_eq_some_iff.mp hj).1
    refine ⟨(hstubs.offset.read_iff id _).mpr ⟨k, hk, rfl⟩,
      (hstubs.slot.read_iff id _).mpr ⟨k, hk, rfl⟩, ?_, j + 1,
      (hindexed.index.read_iff id _).mpr ⟨j, hj, rfl⟩, ?_⟩
    · rw [hstubs.site, getElem?_map, getElem?_range hlt]
      rfl
    · rw [Bytes.wordAt?_eq_some hslice, toNat_info (by omega) (by decide)]
  · rintro ⟨id, hid⟩
    obtain ⟨k, hk, rfl⟩ := (hslots.offset.read_iff id offset).mp hid
    have hlt := (List.getElem?_eq_some_iff.mp hk).1
    have hlength := hslots.length
    omega
  · rintro ⟨⟨k, rfl⟩, hlt⟩
    have hlt' : k < l.slots.length := by
      have hlength := hslots.length
      omega
    exact ⟨l.slots[k], (hslots.offset.read_iff _ _).mpr ⟨k, getElem?_eq_getElem hlt', rfl⟩⟩
  · exact hslots.offset.injective fun j k heq => by omega

/-- **Consistent tables.** After the tables are made and any requests, the loader reads from them
what was asked for, in the order in which it was asked for first; a request that is made again has
the answer that it had, and changes nothing. -/
theorem tabulated_run {calls : List Call} (hfresh : ∀ id, Fresh (t.get id))
    (hsetup : setup t = .ok (d, t₀)) (hcalls : ∀ call ∈ calls, call.Valid t₀)
    (hrun : run calls (d, t₀) = (d', t')) (hnames : (t'.get d'.dynStr).data.length ≤ 2 ^ 32)
    (hcount : d'.count ≤ 2 ^ 24) : Tabulated d' t' (Ledger.ofCalls t₀ calls) ∧
      ∀ before call after, calls = before ++ call :: after →
        perform call (d', t') = ((perform call (run before (d, t₀))).1, d', t') := by
  have hstart := consistent_of_setup hfresh hsetup
  refine ⟨(hstart.run hcalls hrun).tabulated hnames hcount, ?_⟩
  rintro before call after rfl
  rcases hbefore : run before (d, t₀) with ⟨d₁, t₁⟩
  rcases hcall : perform call (d₁, t₁) with ⟨answer, d₂, t₂⟩
  have hafter : run after (d₂, t₂) = (d', t') := by
    rw [run] at hbefore
    rw [← hrun, run, run, List.foldl_append, List.foldl_cons, hbefore, hcall]
  exact (hstart.settled hcalls hbefore hcall hafter).perform

/-- Code that calls an import and takes the address of a table that others can see. -/
def requestSample : SymbolTable :=
  ⟨SymbolTable.initial.symbols ++ (
    [{ name := "main", version := 0, kind := .text, size := 4, data := [1, 2, 3, 4],
       reachable := true },
     { name := "puts", version := 0, kind := .dynamicImport, importLibrary := some "libc.so",
       reachable := true },
     { name := "table", version := 0, kind := .data, size := 8, exported := true,
       reachable := true }] : List Symbol)⟩

/-- Requests that overlap, and one that is made twice. -/
def requestCalls : List Call := [.slot 21, .stub 20, .slot 20, .need "libm.so", .exports, .stub 20]

theorem tabulated_run_sample : ∃ d t₀ d' t', setup requestSample = .ok (d, t₀) ∧
    (∀ call ∈ requestCalls, call.Valid t₀) ∧ run requestCalls (d, t₀) = (d', t') ∧
    Tabulated d' t' ⟨[20, 21], [20], [21, 20], ["libc.so", "libm.so"]⟩ ∧
    perform (.stub 20) (d', t') = (some 20, d', t') := by
  have hfresh : ∀ id, Fresh (requestSample.get id) := forall_get (by decide +kernel) fresh_default
  obtain ⟨d, t₀, hsetup, hvalid, hnames, hcount, hledger, hanswer⟩ :
      ∃ d t₀, setup requestSample = .ok (d, t₀) ∧ (∀ call ∈ requestCalls, call.Valid t₀) ∧
        let s := run requestCalls (d, t₀)
        (s.2.get s.1.dynStr).data.length ≤ 2 ^ 32 ∧ s.1.count ≤ 2 ^ 24 ∧
          Ledger.ofCalls t₀ requestCalls = ⟨[20, 21], [20], [21, 20], ["libc.so", "libm.so"]⟩ ∧
          (perform (.stub 20) (run (requestCalls.take 1) (d, t₀))).1 = some 20 := by
    decide +kernel
  rcases hrun : run requestCalls (d, t₀) with ⟨d', t'⟩
  rw [hrun] at hnames hcount
  obtain ⟨htables, hagain⟩ := tabulated_run hfresh hsetup hvalid hrun hnames hcount
  have hagain := hagain (requestCalls.take 1) (.stub 20) (requestCalls.drop 2) rfl
  rw [hanswer] at hagain
  exact ⟨d, t₀, d', t', hsetup, hvalid, hrun, hledger ▸ htables, hagain⟩

end ArmLink.DynamicTables
