import ArmLink.Proofs.Arm.Stub
import ArmLink.Proofs.Link.Calls
import ArmLink.Proofs.Link.Tables

/-!
# Stubs of a prepared link

The three words of a stub are written by three relocations, which stand at different places and
correct for that. All three see the same distance: from where the first instruction reads the
program counter to the slot.
-/

namespace ArmLink

open SymbolTable DynamicTables Layout Resolve

variable {o : Options} {objects : List Object} {kept u t : SymbolTable} {s s' : Lowering}
  {placed : Placed} {d : DynamicTables} {id target : SymbolId} {addend : Word64}

namespace Arm.Machine

theorem delta_add (p g stub slot k : Nat) (got : Option Word64) :
    (⟨.ofNat 64 g, .ofInt 64 ((slot : Int) - 8), .ofNat 64 (p + (stub + k)), got⟩ : Inputs).delta +
      .ofNat 32 k = Stub.distance (.ofNat 32 (p + stub)) (.ofNat 32 (g + slot)) := by
  have haddend : BitVec.ofInt 64 ((slot : Int) - 8) = .ofNat 64 slot - .ofNat 64 8 := by
    rw [Int.sub_eq_add_neg, BitVec.ofInt_add, BitVec.ofInt_neg, ← BitVec.sub_eq_add_neg,
      BitVec.ofInt_natCast]
    rfl
  rw [Inputs.delta, haddend, Stub.distance]
  simp only [narrow_add, narrow_sub, narrow_ofNat]
  simp only [BitVec.ofNat_add]
  grind

end Arm.Machine

namespace Link

namespace Linked

theorem machineWord {kind : Relocation.Kind} {offset : Nat} {word : Arm.Machine.Inputs → Word}
    (h : Linked o kept placed s s' u t d) (hid : id ∈ d.all)
    (hr : .pending offset 4 kind (some target) addend ∈ (u.get id).relocations)
    (hkind : kind ∈ machineKinds)
    (hword : ∀ i, Arm.Machine.resolve? kind i = .ok (some ((word i).setWidth 64))) :
    ∃ base address, (placed.table.get id).value = some base ∧
      (placed.table.get target).value = some address ∧
      (placed.table.get id).data.slice? offset 4 = some (.ofWord (word ⟨.ofNat 64 address, addend,
        .ofNat 64 (base + offset), (gotAddress t).map (.ofNat 64)⟩)) := by
  obtain ⟨x, hsettle, hslice⟩ := h.settled hid hr
  obtain ⟨base, address, hbase, haddress, hx⟩ := machine_of_settle hkind rfl rfl hsettle
  refine ⟨base, address, (h.value_eq id).trans hbase, (h.value_eq target).trans haddress, ?_⟩
  rw [hword] at hx
  refine hslice.trans (congrArg some ((Bytes.ofNat_eq_ofWord _).trans (congrArg Bytes.ofWord ?_)))
  rw [← Option.some.inj (Except.ok.inj hx)]
  exact narrow_widen _

/-- **Stubs.** The words of a stub are the instructions for the distance to its slot. -/
theorem stub {stub slot : Nat} (h : Linked o kept placed s s' u t d)
    (hwords : ∀ r ∈ d.stubWords stub slot, r ∈ (u.get d.plt).relocations) :
    ∃ p g, (placed.table.get d.plt).value = some p ∧ (placed.table.get d.gotPlt).value = some g ∧
      ∀ k w,
        (Arm.Stub.words (Arm.Stub.distance (.ofNat 32 (p + stub)) (.ofNat 32 (g + slot))))[k]? =
          some w →
        (placed.table.get d.plt).data.slice? (stub + 4 * k) 4 = some (.ofWord w) := by
  have hplt : d.plt ∈ d.all := by simp [all]
  simp only [stubWords, List.forall_mem_cons, List.not_mem_nil, false_implies, implies_true,
    and_true] at hwords
  obtain ⟨hfirst, hsecond, hthird⟩ := hwords
  obtain ⟨p, g, hp, hg, hfirst⟩ := h.machineWord hplt hfirst (by decide) fun _ => rfl
  obtain ⟨p₂, g₂, hp₂, hg₂, hsecond⟩ := h.machineWord hplt hsecond (by decide) fun _ => rfl
  obtain ⟨p₃, g₃, hp₃, hg₃, hthird⟩ := h.machineWord hplt hthird (by decide) fun _ => rfl
  cases Option.some.inj (hp.symm.trans hp₂)
  cases Option.some.inj (hp.symm.trans hp₃)
  cases Option.some.inj (hg.symm.trans hg₂)
  cases Option.some.inj (hg.symm.trans hg₃)
  refine ⟨p, g, hp, hg, fun k w hw => ?_⟩
  have hdelta (k : Nat) := Arm.Machine.delta_add p g stub slot k ((gotAddress t).map (.ofNat 64))
  rcases k with _ | _ | _ | k
  · cases hw
    rw [← hdelta 0, BitVec.add_zero]
    exact hfirst
  · cases hw
    rw [← hdelta 4]
    exact hsecond
  · cases hw
    rw [← hdelta 8]
    exact hthird
  · cases hw

end Linked

/-- **Stubs reach their slots.** The three words of the stub of an import jump through the import's
slot if and only if the distance has 28 bits, counted from where the first of them reads the program
counter. Nobody refuses a longer distance; the stub adds its lower 28 bits. -/
theorem stub_reaches {stub : Nat} (h : prepare o objects = .ok placed)
    (hneeds : o.needsDynamic = true) (hstub : (placed.table.get id).pltOffset = some stub) :
    ∃ plt gotPlt p g slot words, placed.table.find? Elf.SectionName.plt 0 = some plt ∧
      placed.table.find? Elf.SectionName.gotPlt 0 = some gotPlt ∧
      (placed.table.get plt).value = some p ∧ (placed.table.get gotPlt).value = some g ∧
      (placed.table.get id).gotPltOffset = some slot ∧
      slot + 4 ≤ (placed.table.get gotPlt).data.length ∧ words.length = 3 ∧
      (∀ k w, words[k]? = some w →
        (placed.table.get plt).data.slice? (stub + 4 * k) 4 = some (.ofWord w)) ∧
      ∀ registers,
        Arm.Stub.jumpsThrough? words ⟨.ofNat 32 (p + stub), registers⟩ =
          some (.ofNat 32 (p + stub) + 8 + .ofNat 32
            ((Arm.Stub.distance (.ofNat 32 (p + stub)) (.ofNat 32 (g + slot))).toNat % 2 ^ 28)) ∧
        (Arm.Stub.jumpsThrough? words ⟨.ofNat 32 (p + stub), registers⟩ =
            some (.ofNat 32 (g + slot)) ↔
          (Arm.Stub.distance (.ofNat 32 (p + stub)) (.ofNat 32 (g + slot))).toNat < 2 ^ 28) := by
  obtain ⟨kept, s, s', u, t, d, hlinked⟩ := linked_of_prepare h hneeds
  obtain ⟨path, hsound⟩ := hlinked.tabled.sound
  have hentries := hlinked.entriesOf_eq id
  simp only [entriesOf, Prod.mk.injEq] at hentries
  obtain ⟨slot, index, hslot, -, hwords, hfirst, -⟩ :=
    (hsound.noted id).stub stub (hentries.2.1.symm.trans hstub)
  obtain ⟨p, g, hp, hg, hwords⟩ := hlinked.stub hwords
  have hgotPlt : d.gotPlt ∈ d.all := by simp [all]
  refine ⟨d.plt, d.gotPlt, p, g, slot, _, hlinked.found (List.mem_of_getElem? (i := 6) rfl),
    hlinked.found (List.mem_of_getElem? (i := 5) rfl), hp, hg, hentries.2.2.1.trans hslot, ?_, rfl,
    hwords, fun registers => ⟨?_, ?_⟩⟩
  · rw [hlinked.length_table hgotPlt]
    exact (hlinked.filled hgotPlt).stop _ hfirst
  · exact Arm.Stub.jumpsThrough?_words _ _
  · exact Arm.Stub.reaches_iff _ _ registers

theorem stub_reaches_sample : ∃ placed words,
    prepare callOptions callSample = .ok placed ∧ callOptions.needsDynamic = true ∧
    (placed.table.get 20).pltOffset = some 20 ∧ words.length = 3 ∧ (∀ k w, words[k]? = some w →
      (placed.table.get 27).data.slice? (20 + 4 * k) 4 = some (.ofWord w)) ∧
    ∀ registers, Arm.Stub.jumpsThrough? words ⟨68640, registers⟩ = some 73740 := by
  obtain ⟨placed, hplaced, hstub, hslot, hplt, hgotPlt, hp, hg⟩ :
      ∃ placed, prepare callOptions callSample = .ok placed ∧
        (placed.table.get 20).pltOffset = some 20 ∧
        (placed.table.get 20).gotPltOffset = some 12 ∧
        placed.table.find? Elf.SectionName.plt 0 = some 27 ∧
        placed.table.find? Elf.SectionName.gotPlt 0 = some 26 ∧
        (placed.table.get 27).value = some 68620 ∧ (placed.table.get 26).value = some 73728 := by
    decide +kernel
  obtain ⟨plt, gotPlt, p, g, slot, words, hplt', hgotPlt', hp', hg', hslot', -, hlength, hwords,
    hreaches⟩ := stub_reaches hplaced rfl hstub
  cases hplt.symm.trans hplt'
  cases hgotPlt.symm.trans hgotPlt'
  cases hp.symm.trans hp'
  cases hg.symm.trans hg'
  cases hslot.symm.trans hslot'
  refine ⟨placed, words, hplaced, rfl, hstub, hlength, hwords, fun registers => ?_⟩
  exact (hreaches registers).2.mpr (by decide)

/-- A program that calls an import, with 256 MiB between its code and the slot. -/
def distantSample : List Object :=
  [{ path := "a"
     symbols :=
       [programCode [1, 2, 3, 4, 5, 6, 7, 8]
          [.pending 0 4 .call (some "puts") 0xebfffffe, .pending 4 4 .absolute (some "gap") 0],
        programTable "gap" (2 ^ 28) [] []]
     imports := [{ name := "puts" }] }]

/-- **A distant stub strays.** The link succeeds, and the stub of the import jumps through a word
that is not its slot. -/
theorem distant_stub_strays : ∃ placed words, prepare callOptions distantSample = .ok placed ∧
    callOptions.needsDynamic = true ∧ placed.table.find? Elf.SectionName.plt 0 = some 28 ∧
    placed.table.find? Elf.SectionName.gotPlt 0 = some 27 ∧
    (placed.table.get 28).value = some 68616 ∧ (placed.table.get 27).value = some 268509184 ∧
    (placed.table.get 20).pltOffset = some 20 ∧ (placed.table.get 20).gotPltOffset = some 12 ∧
    words.length = 3 ∧ (∀ k w, words[k]? = some w →
      (placed.table.get 28).data.slice? (20 + 4 * k) 4 = some (.ofWord w)) ∧
    ∀ registers, Arm.Stub.jumpsThrough? words ⟨.ofNat 32 (68616 + 20), registers⟩ ≠
      some (.ofNat 32 (268509184 + 12)) := by
  obtain ⟨placed, hplaced, hplt, hgotPlt, hp, hg, hstub, hslot, hwords⟩ :
      ∃ placed, prepare callOptions distantSample = .ok placed ∧
        placed.table.find? Elf.SectionName.plt 0 = some 28 ∧
        placed.table.find? Elf.SectionName.gotPlt 0 = some 27 ∧
        (placed.table.get 28).value = some 68616 ∧ (placed.table.get 27).value = some 268509184 ∧
        (placed.table.get 20).pltOffset = some 20 ∧ (placed.table.get 20).gotPltOffset = some 12 ∧
        ∀ k < 3, (placed.table.get 28).data.slice? (20 + 4 * k) 4 =
          (Arm.Stub.words (Arm.Stub.distance 68636 268509196))[k]?.map .ofWord := by
    decide +kernel
  refine ⟨placed, Arm.Stub.words (Arm.Stub.distance 68636 268509196), hplaced, rfl, hplt, hgotPlt,
    hp, hg, hstub, hslot, rfl, fun k w hw => ?_, fun registers hreaches => ?_⟩
  · obtain ⟨hk, -⟩ := List.getElem?_eq_some_iff.mp hw
    rw [hwords k hk, hw]
    rfl
  · have hnear := (Arm.Stub.reaches_iff _ _ registers).mp hreaches
    revert hnear
    decide

end Link

end ArmLink
