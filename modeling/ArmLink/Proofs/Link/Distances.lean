import ArmLink.Proofs.Link.Calls

/-!
# Distances to imports

The distance to an import is the distance to its stub. Lowering adds the offset of the stub to the
distance of a branch, but with a plain distance it puts the offset in the place of the addend. So
the addend is lost, and the distance is right only if there was none.
-/

namespace ArmLink

open SymbolTable DynamicTables
open Relocation (Outcome)

variable {o : Options} {objects : List Object} {kept : SymbolTable} {placed : Placed}
  {owner target : SymbolId} {addend : Word64} {r : Relocation SymbolId}

/-- A distance to an import is sent to the stub, without its addend. -/
theorem DynamicTables.LoweredBetween.distance {external : Bool} {owners : List SymbolId}
    {s s' : Lowering} {outcome? : Option (Outcome SymbolId)}
    (h : LoweredBetween external owners owner s s' r outcome?)
    (hr : r.outcome = .pending .pcRelative (some target) addend) (hsome : s.1.isSome = true)
    (himport : (s.2.get target).isImport = true) : ∃ d stub, HasStub s' d target stub ∧
      outcome? = some (.pending .pcRelative (some d.plt) (.ofNat 64 stub)) := by
  obtain ⟨s₁, lowered, hfirst, hlower, rfl, hlast⟩ := h
  obtain ⟨d, hd⟩ := Option.isSome_iff_exists.mp (hfirst.isSome.trans hsome)
  have himports := hfirst.shell.read Symbol.isImport fun _ => rfl
  have himport₁ := (himports.2 target).trans himport
  simp only [lowerRelocation, hr, hd, himport₁, if_true, lowerImport] at hlower
  cases hlower
  obtain ⟨d', hstub, hplt⟩ := (hasStub_ensureStub himport₁).evolves hlast
  exact ⟨d', _, hstub, by rw [hplt]⟩

namespace Link

/-- The distance from behind the bytes of a relocation to an address, with an addend. -/
def distanceTo (address base : Nat) (r : Relocation SymbolId) (addend : Word64) : Word64 :=
  .ofNat 64 address + addend - (.ofNat 64 (base + r.offset) + .ofNat 64 r.size)

theorem distanceTo_inj {address base : Nat} {addend' : Word64} :
    distanceTo address base r addend = distanceTo address base r addend' ↔ addend = addend' := by
  rw [distanceTo, distanceTo, BitVec.sub_eq_add_neg, BitVec.sub_eq_add_neg, BitVec.add_left_inj,
    BitVec.add_right_inj]

/-- **Distances to stubs.** In a link with tables for the dynamic loader, a distance to an import
from a symbol that has a place becomes the distance to the import's stub. Whatever its addend was,
it is not added, so that the distance is the one that was asked for if and only if the addend is
zero. -/
theorem distance_to_stub {i : Nat} (hkept : collect o objects = .ok kept)
    (h : prepare o objects = .ok placed) (hdynamic : o.needsDynamic = true)
    (howner : Resolve.isSite (kept.get owner) = true)
    (hr : (kept.get owner).relocations[i]? = some r)
    (houtcome : r.outcome = .pending .pcRelative (some target) addend)
    (himport : (kept.get target).isImport = true) :
    ∃ base address stub v, (placed.table.get owner).value = some base ∧
      destination? o kept placed.table target = some (address, stub) ∧
      { r with outcome := .constant v } ∈ (placed.table.get owner).relocations ∧
      v = distanceTo (address + stub) base r 0 ∧
      (v = distanceTo (address + stub) base r addend ↔ addend = 0) ∧
      ((∀ j r', i < j → (kept.get owner).relocations[j]? = some r' → ¬ Resolve.Overlap r r') →
        (placed.table.get owner).data.slice? r.offset r.size = some (.ofNat r.size v.toNat)) := by
  have hinternal : o.isExternal = false := by
    simpa using (Bool.and_eq_true_iff.mp hdynamic).1
  obtain ⟨s, s', t, outcome?, htraced⟩ := traced_of_prepare hkept h howner hr
  obtain ⟨d, stub, hstub, rfl⟩ := htraced.lowered.distance houtcome
    (htraced.started.isSome.trans hdynamic) ((htraced.started.imports target).trans himport)
  obtain ⟨x, hsettle, hslice⟩ := htraced.settled _ rfl
  have hnoted := htraced.noted _ rfl x hsettle
  obtain ⟨base, address, hbase, haddress, hx⟩ :=
    Resolve.value_of_settle_pcRelative hinternal rfl hsettle
  obtain ⟨v, rfl, -⟩ := Resolve.constant_of_settle hinternal rfl hsettle
  have hnames : Keeps (fun s => (s.name, s.version, s.pltOffset)) s'.2 placed.table :=
    (htraced.computed.map fun s => (s.name, s.version, s.pltOffset)).trans
      (htraced.applied.map fun s => (s.name, s.version, s.pltOffset))
  have hvalues := htraced.applied.read Symbol.value fun _ => rfl
  have hv : v = distanceTo (address + stub) base r 0 := by
    simpa [distanceTo, BitVec.ofNat_add] using hx
  refine ⟨base, address, stub, v, (hvalues.2 owner).trans hbase, ?_, hnoted, hv, ?_, hslice⟩
  · exact destination_of_hasStub htraced.started htraced.evolves hnames hstub
      ((hvalues.2 d.plt).trans haddress)
  · rw [hv, distanceTo_inj, eq_comm]

/-- A program with two distances to an import, of which the second has an addend. -/
def stubSample : List Object :=
  [{ path := "a"
     symbols :=
       [programCode (Bytes.zeros 8)
          [.pending 0 4 .pcRelative (some "puts") 0, .pending 4 4 .pcRelative (some "puts") 4]]
     imports := [{ name := "puts" }] }]

theorem distance_to_stub_sample : callOptions.needsDynamic = true ∧ ∃ kept placed,
      collect callOptions stubSample = .ok kept ∧
      prepare callOptions stubSample = .ok placed ∧ Resolve.isSite (kept.get 19) = true ∧
      (kept.get 19).relocations =
        [.pending 0 4 .pcRelative (some 20) 0, .pending 4 4 .pcRelative (some 20) 4] ∧
      (kept.get 20).isImport = true ∧
      ⟨0, 4, .constant (distanceTo (68616 + 20) 68608 (.pending 0 4 .pcRelative (some 20) 0) 0)⟩ ∈
        (placed.table.get 19).relocations ∧
      (placed.table.get 19).data.slice? 4 4 = some (.ofNat 4 20) := by
  obtain ⟨kept, hkept, placed, hplaced, hsite, hrelocations, himport, hvalue, hdestination⟩ :
      ∃ kept, collect callOptions stubSample = .ok kept ∧
        ∃ placed, prepare callOptions stubSample = .ok placed ∧
          Resolve.isSite (kept.get 19) = true ∧ (kept.get 19).relocations =
            [.pending 0 4 .pcRelative (some 20) 0, .pending 4 4 .pcRelative (some 20) 4] ∧
          (kept.get 20).isImport = true ∧ (placed.table.get 19).value = some 68608 ∧
          destination? callOptions kept placed.table 20 = some (68616, 20) := by
    decide +kernel
  have hfirst : (kept.get 19).relocations[0]? = some (.pending 0 4 .pcRelative (some 20) 0) := by
    rw [hrelocations]
    rfl
  have hsecond : (kept.get 19).relocations[1]? = some (.pending 4 4 .pcRelative (some 20) 4) := by
    rw [hrelocations]
    rfl
  have hlast : ∀ j r', 1 < j → (kept.get 19).relocations[j]? = some r' →
      ¬ Resolve.Overlap (.pending 4 4 .pcRelative (some 20) 4) r' := by
    intro j r' hj hr'
    rw [hrelocations, List.getElem?_eq_none (Nat.succ_le_of_lt hj)] at hr'
    cases hr'
  obtain ⟨base, address, stub, v, hbase, hgoes, hnoted, hv, hasked, -⟩ :=
    distance_to_stub hkept hplaced rfl hsite hfirst rfl himport
  obtain ⟨base', address', stub', v', hbase', hgoes', -, hv', -, hslice⟩ :=
    distance_to_stub hkept hplaced rfl hsite hsecond rfl himport
  cases hbase.symm.trans hvalue
  cases hbase'.symm.trans hvalue
  cases hgoes.symm.trans hdestination
  cases hgoes'.symm.trans hdestination
  refine ⟨rfl, kept, placed, hkept, hplaced, hsite, hrelocations, himport, ?_, ?_⟩
  · exact hasked.mpr rfl ▸ hnoted
  · exact (hslice hlast).trans (by rw [hv']; rfl)

/-- The addend of a distance to an import is lost. -/
theorem distance_without_addend : ∃ kept, collect callOptions stubSample = .ok kept ∧
      ∃ placed, prepare callOptions stubSample = .ok placed ∧
        Resolve.isSite (kept.get 19) = true ∧
        (kept.get 19).relocations[1]? = some (.pending 4 4 .pcRelative (some 20) 4) ∧
        (kept.get 20).isImport = true ∧ (placed.table.get 19).value = some 68608 ∧
        destination? callOptions kept placed.table 20 = some (68616, 20) ∧
        (placed.table.get 19).relocations[1]? = some ⟨4, 4, .constant 20⟩ ∧
        distanceTo (68616 + 20) 68608 (.pending 4 4 .pcRelative (some 20) 4) 4 = 24 := by
  decide +kernel

end Link

end ArmLink
