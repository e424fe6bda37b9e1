import ArmLink.Proofs.Arm.Branch
import ArmLink.Proofs.Link.Prepare
import ArmLink.Proofs.Resolve.Values

/-!
# Where calls land

The distance of a branch is added up in two steps: lowering adds the offset of a stub, and
resolution adds the distance from the place to the target or to the table of the stubs. Each
addition wraps around, and only the second is checked. As long as the first stays within reach, the
branch lands where it should.
-/

namespace ArmLink

open SymbolTable DynamicTables

variable {t : SymbolTable} {s s'' : Lowering} {owners : List SymbolId}

/-! ## Distances -/

/-- The branch `w'` goes `stub` bytes further than `w`, if that is within reach. -/
def Arm.Branch.Redirects (w w' : Word) (stub : Nat) : Prop :=
  InReach (displacement w + stub) →
    w'.topByte = w.topByte ∧ displacement w' = displacement w + stub

theorem redirects_branchToStub {addend : Word64} {stub : Nat} (hdvd : 4 ∣ stub) :
    Arm.Branch.Redirects (addend.setWidth 32) ((branchToStub addend stub).setWidth 32) stub := by
  intro hreach
  have hword : (branchToStub addend stub).setWidth 32 =
      Arm.Branch.advance (addend.setWidth 32) (.ofInt 32 (stub / 4 : Nat)) := by
    rw [branchToStub, BitVec.setWidth_setWidth_of_le _ (by decide), BitVec.setWidth_eq,
      BitVec.ofInt_natCast]
  have hwords : ((stub / 4 : Nat) : Int) * 4 = stub := by omega
  rw [← hwords] at hreach
  rw [hword, Arm.Branch.topByte_advance, Arm.Branch.displacement_advance hreach, hwords]
  exact ⟨rfl, rfl⟩

/-- A branch that was resolved without the help of a host linker. -/
theorem Resolve.settle_call {c : Context} {owner target : SymbolId} {r : Relocation SymbolId}
    {addend : Word64} {x : Settlement} (hinternal : c.external = false)
    (hr : r.outcome = .pending .call (some target) addend) (h : settle c t owner r = .ok x) :
    ∃ base address word, (t.get owner).value = some base ∧ (t.get target).value = some address ∧
      Arm.Machine.branch ⟨.ofNat 64 address, addend, .ofNat 64 (base + r.offset),
        c.got.map (.ofNat 64)⟩ = .ok word ∧ x.1 = word.setWidth 64 := by
  obtain ⟨base, address, hbase, haddress, hv⟩ :=
    machine_of_settle List.mem_cons_self hinternal hr h
  obtain ⟨word, hword, hv⟩ := bind_eq_ok.mp hv
  exact ⟨base, address, word, hbase, haddress, hword,
    (Option.some.inj (pure_eq_ok.mp hv)).symm⟩

namespace Link

open Arm.Branch (InReach displacement Redirects)

variable {o : Options} {objects : List Object} {kept : SymbolTable} {placed : Placed}
  {owner target : SymbolId} {addend : Word64}

/-! ## Destinations -/

/-- Where one gets from an address: addresses have 64 bits, and wrap around. -/
def goFrom (address : Nat) (distance : Int) : Word64 := .ofNat 64 address + .ofInt 64 distance

/-- Going the distance between two addresses leads from one to the other. -/
theorem goFrom_distance (place address stub : Nat) (distance : Int) :
    goFrom place (distance + stub + (BitVec.ofNat 64 address - .ofNat 64 place).toInt) =
      goFrom (address + stub) distance := by
  rw [goFrom, goFrom, BitVec.ofInt_add, BitVec.ofInt_toInt, BitVec.ofInt_add, BitVec.ofInt_natCast,
    BitVec.ofNat_add]
  bv_omega

theorem dvd_distance {place address : Nat} (h : place % 4 = address % 4) :
    4 ∣ (BitVec.ofNat 64 address - BitVec.ofNat 64 place).toInt := by
  obtain ⟨k, hk⟩ := Word64.exists_toInt_sub address place
  omega

/-- Where a branch to a symbol should go: to the symbol's address, or to the offset of an import's
stub from the address of the table of the stubs. The symbols are given as they were collected and as
they were placed. -/
def destination? (o : Options) (kept t : SymbolTable) (target : SymbolId) : Option (Nat × Nat) :=
  if o.needsDynamic && (kept.get target).isImport then do
    let plt ← t.find? Elf.SectionName.plt 0
    return (← (t.get plt).value, ← (t.get target).pltOffset)
  else do return (← (t.get target).value, 0)

/-- A reference to an import that has a stub goes there. -/
theorem destination_of_hasStub {d : DynamicTables} {stub address : Nat}
    (hstarted : Started o kept s) (hevolves : Evolves owners s s'')
    (hplaced : Keeps (fun s => (s.name, s.version, s.pltOffset)) s''.2 t)
    (h : HasStub s'' d target stub) (haddress : (t.get d.plt).value = some address) :
    destination? o kept t target = some (address, stub) := by
  have himports := hevolves.shell.read Symbol.isImport fun _ => rfl
  have himport : (o.needsDynamic && (kept.get target).isImport) = true := by
    rw [← hstarted.isSome, ← hevolves.isSome, ← hstarted.imports target, ← himports.2 target,
      h.tables, h.isImport]
    rfl
  obtain ⟨d₀, hd₀, hgrows⟩ := hevolves.dynamic_of_eq h.tables
  have hplt : t.find? Elf.SectionName.plt 0 = some d.plt := by
    rw [Keeps.find? (hplaced.map fun s => (s.1, s.2.1)),
      hgrows.shell.finds _ _ fun _ => rfl, hstarted.plt d₀ hd₀,
      plt_eq_of_all hgrows.all]
  have hstub : (t.get target).pltOffset = some stub :=
    (congrArg (·.2.2) (hplaced.2 target)).trans h.offset
  rw [destination?, himport, hplt, hstub]
  show ((t.get d.plt).value.bind fun address => some (address, stub)) = _
  rw [haddress]
  rfl

theorem destination_of_sent {outcome : Relocation.Outcome SymbolId} (hstarted : Started o kept s)
    (hevolves : Evolves owners s s'')
    (hplaced : Keeps (fun s => (s.name, s.version, s.pltOffset)) s''.2 t)
    (hsent : Sent s'' target addend outcome) :
    ∃ target' addend' stub, outcome = .pending .call (some target') addend' ∧ 4 ∣ stub ∧
      Redirects (addend.setWidth 32) (addend'.setWidth 32) stub ∧
      ∀ address, (t.get target').value = some address →
        destination? o kept t target = some (address, stub) := by
  have himports := hevolves.shell.read Symbol.isImport fun _ => rfl
  have himport : (s''.2.get target).isImport = (kept.get target).isImport :=
    (himports.2 target).trans (hstarted.imports target)
  cases hsent with
  | direct hdirect =>
    have hnot : (o.needsDynamic && (kept.get target).isImport) = false := by
      rw [← hstarted.isSome, ← hevolves.isSome, ← himport]
      rcases hdirect with hnone | hlocal
      · rw [hnone]
        rfl
      · rw [hlocal, Bool.and_false]
    refine ⟨target, addend, 0, rfl, Nat.dvd_zero 4, fun _ => ⟨rfl, (Int.add_zero _).symm⟩, ?_⟩
    intro address haddress
    rw [destination?, hnot, haddress]
    rfl
  | stub hd himported hstub =>
    rename_i d stub
    obtain ⟨d₀, hd₀, hgrows⟩ := hevolves.dynamic_of_eq hd
    obtain ⟨hnodup, hwords⟩ := hstarted.inWords d₀ hd₀
    have hdvd : 4 ∣ stub := (hgrows.inWords hnodup hwords).stub target stub hstub
    exact ⟨d.plt, branchToStub addend stub, stub, rfl, hdvd, redirects_branchToStub hdvd,
      fun _ => destination_of_hasStub hstarted hevolves hplaced ⟨hd, himported, hstub⟩⟩

/-- **Calls land.** Every branch on a symbol that has a place goes to its destination, unless a
later relocation patches one of its bytes. Since the destination depends on the target only, all
branches to an import go to the same stub. -/
theorem branch_lands {i : Nat} {r : Relocation SymbolId} {kind : Relocation.Kind}
    (hkept : collect o objects = .ok kept) (h : prepare o objects = .ok placed)
    (hinternal : o.isExternal = false) (howner : Resolve.isSite (kept.get owner) = true)
    (hr : (kept.get owner).relocations[i]? = some r) (hsize : r.size = 4)
    (houtcome : r.outcome = .pending kind (some target) addend) (hkind : isCall kind = true)
    (hlater : ∀ j r', i < j → (kept.get owner).relocations[j]? = some r' → ¬ Resolve.Overlap r r') :
    ∃ base address stub, (placed.table.get owner).value = some base ∧
      destination? o kept placed.table target = some (address, stub) ∧
      ((base + r.offset) % 4 = (address + stub) % 4 →
        InReach (displacement (addend.setWidth 32) + stub) →
        ∃ word, (placed.table.get owner).data.slice? r.offset 4 = some (Bytes.ofWord word) ∧
          word.topByte = Word.topByte (addend.setWidth 32) ∧
          goFrom (base + r.offset) (displacement word) =
            goFrom (address + stub) (displacement (addend.setWidth 32))) := by
  obtain ⟨s, s'', t, outcome?, htraced⟩ := traced_of_prepare hkept h howner hr
  obtain ⟨outcome, rfl, hsent⟩ := htraced.lowered.call houtcome hkind
  obtain ⟨x, hsettle, hslice⟩ := htraced.settled outcome rfl
  have hnames : Keeps (fun s => (s.name, s.version, s.pltOffset)) s''.2 placed.table :=
    (htraced.computed.map fun s => (s.name, s.version, s.pltOffset)).trans
      (htraced.applied.map fun s => (s.name, s.version, s.pltOffset))
  obtain ⟨target', addend', stub, rfl, hdvd, hredirects, hdestination⟩ :=
    destination_of_sent htraced.started htraced.evolves hnames hsent
  obtain ⟨base, address, word, hbase, haddress, hbranch, hx⟩ :=
    Resolve.settle_call hinternal rfl hsettle
  have hvalues := htraced.applied.read Symbol.value fun _ => rfl
  refine ⟨base, address, stub, (hvalues.2 owner).trans hbase,
    hdestination address ((hvalues.2 target').trans haddress), fun hmod hreach => ?_⟩
  have haligned : (base + r.offset) % 4 = address % 4 := by omega
  obtain ⟨htop, hgoes⟩ := Arm.Machine.displacement_of_branch hbranch (dvd_distance haligned)
  obtain ⟨htop', hfurther⟩ := hredirects hreach
  refine ⟨word, ?_, htop.trans htop', ?_⟩
  · have hword : x.1.toNat = word.toNat := by
      rw [hx]
      exact BitVec.toNat_setWidth_of_le (by decide)
    rw [← hsize, hslice hlater, hword, hsize]
    rfl
  · rw [hgoes, hfurther]
    exact goFrom_distance ..

/-- A program that calls an import twice. -/
def callSample : List Object :=
  [{ path := "a"
     symbols :=
       [{ name := "main"
          kind := .text
          size := 12
          data := [1, 2, 3, 4, 5, 6, 7, 8, 9, 10, 11, 12]
          relocations :=
            [.pending 0 4 .call (some "puts") 0xebfffffe,
             .pending 8 4 (.elf 28) (some "puts") 0xebfffffe] }]
     imports := [{ name := "puts" }] }]

def programCode (data : Bytes) (relocations : List (Relocation String)) : ObjectSymbol where
  name := "main"
  kind := .text
  size := data.length
  data := data
  relocations := relocations

/-- Data of a program that may not be written: some bytes, and zeros up to its size. -/
def programTable (name : String) (size : Nat) (data : Bytes)
    (relocations : List (Relocation String)) : ObjectSymbol where
  name := name
  kind := .readOnlyData
  size := size
  data := data
  relocations := relocations

/-- Options of a program that the dynamic loader starts. -/
def callOptions : Options where
  outputKind := .dynamic
  entry := .symbol "main"

theorem branch_lands_sample :
    callOptions.isExternal = false ∧ ∃ kept placed, collect callOptions callSample = .ok kept ∧
      prepare callOptions callSample = .ok placed ∧ Resolve.isSite (kept.get 19) = true ∧
      (kept.get 19).relocations[0]? = some (.pending 0 4 .call (some 20) 0xebfffffe) ∧
      InReach (displacement 0xebfffffe + 20) ∧
      ∃ word, (placed.table.get 19).data.slice? 0 4 = some (Bytes.ofWord word) ∧
        word.topByte = 0xeb ∧
        goFrom 68608 (displacement word) = goFrom (68620 + 20) (displacement 0xebfffffe) := by
  obtain ⟨kept, hkept, placed, hplaced, hsite, hrelocations, hvalue, hdestination⟩ :
      ∃ kept, collect callOptions callSample = .ok kept ∧
        ∃ placed, prepare callOptions callSample = .ok placed ∧
          Resolve.isSite (kept.get 19) = true ∧ (kept.get 19).relocations =
          [.pending 0 4 .call (some 20) 0xebfffffe, .pending 8 4 (.elf 28) (some 20) 0xebfffffe] ∧
          (placed.table.get 19).value = some 68608 ∧
          destination? callOptions kept placed.table 20 = some (68620, 20) := by
    decide +kernel
  have hr : (kept.get 19).relocations[0]? = some (.pending 0 4 .call (some 20) 0xebfffffe) := by
    rw [hrelocations]
    rfl
  have hreach : InReach (displacement 0xebfffffe + 20) := by decide
  have hlater : ∀ j r', 0 < j → (kept.get 19).relocations[j]? = some r' →
      ¬ Resolve.Overlap (.pending 0 4 .call (some 20) 0xebfffffe) r' := by
    intro j r' hj hr'
    rw [hrelocations] at hr'
    rcases j with _ | _ | j
    · cases hj
    · cases hr'
      decide
    · cases hr'
  obtain ⟨base, address, stub, hbase, hgoes, hlands⟩ :=
    branch_lands hkept hplaced rfl hsite hr rfl rfl rfl hlater
  obtain rfl : base = 68608 := Option.some.inj (hbase.symm.trans hvalue)
  obtain ⟨rfl, rfl⟩ : address = 68620 ∧ stub = 20 :=
    Prod.mk.inj (Option.some.inj (hgoes.symm.trans hdestination))
  obtain ⟨word, hslice, htop, hgoes⟩ := hlands (by decide) hreach
  exact ⟨rfl, kept, placed, hkept, hplaced, hsite, hr, hreach, word, hslice, htop, hgoes⟩

end Link

end ArmLink
