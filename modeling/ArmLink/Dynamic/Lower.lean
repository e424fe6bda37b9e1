import ArmLink.Dynamic

/-!
# Lowering of relocations

Some relocations cannot be resolved as they are. Lowering turns raw ELF relocations of object files
into the linker's own kinds, and sends references to imports through a stub, a slot of the global
offset table, or a relocation that the loader applies.
-/

namespace ArmLink

inductive LowerError where
  | noTarget (owner : String) (kind : Relocation.Kind) (offset : Nat)
  | unsupportedType (type : Nat)
  /-- a global offset table is needed, which the output does not have -/
  | needsGot (type : Nat) (target owner : String) (external : Bool)
  | importAddress (type : Nat) (target owner : String)
  | importReference (kind : Relocation.Kind) (target owner : String) (offset : Nat)
  deriving DecidableEq, Repr

def LowerError.message : LowerError → String
  | noTarget owner kind offset =>
    owner ++ ": " ++ kind.text ++ s!" relocation at offset {offset} has no target"
  | unsupportedType type => Arm.Machine.unsupportedType type
  | needsGot type target owner external =>
    "unsupported relocation " ++ Elf.RelocationType.name type
      ++ s!" against {target} in {owner}: needs a GOT, which "
      ++ (if external then "-linkmode=external" else "static") ++ " output doesn't have"
  | importAddress type target owner =>
    "unsupported relocation " ++ Elf.RelocationType.name type
      ++ s!" against dynamic import {target} in {owner}"
  | importReference kind target owner offset =>
    "unsupported relocation " ++ kind.text
      ++ s!" against dynamic import {target} in {owner} at offset {offset}"

namespace DynamicTables

open Relocation (Kind)

/-- What a relocation is lowered to, with the tables and symbols as they are then. `none` if nothing
is left of it. -/
structure Lowered where
  /-- what has become of the relocation -/
  outcome : Option (Relocation.Outcome SymbolId)
  tables : Option DynamicTables
  symbols : SymbolTable

/-- A branch sent through the stub at an offset, which is added to the branch's distance. -/
def branchToStub (addend : Word64) (stub : Nat) : Word64 :=
  (Arm.Branch.advance (addend.setWidth 32) (.ofNat 32 (stub / 4))).setWidth 64

/-- Lowers a raw relocation with a target. -/
def lowerRaw (external : Bool) (d? : Option DynamicTables) (t : SymbolTable) (owner : SymbolId)
    (type : Nat) (target : SymbolId) (addend : Word64) : Except LowerError Lowered :=
  let keep (kind : Kind) (addend : Word64) : Lowered :=
    ⟨some (.pending kind (some target) addend), d?, t⟩
  let needsGot : LowerError :=
    .needsGot type (t.get target).text (t.get owner).text external
  match Arm.Machine.classify? type with
  | none => .error (.unsupportedType type)
  | some .ignored => .ok ⟨none, d?, t⟩
  | some .call =>
    match d? with
    | some d =>
      if (t.get target).isImport then
        let (stub, d, t) := d.ensureStub t target
        .ok ⟨some (.pending .call (some d.plt) (branchToStub addend stub)), some d, t⟩
      else .ok (keep .call addend)
    | none => .ok (keep .call addend)
  | some .gotSlotOffset =>
    match d? with
    | some d =>
      let (slot, d, t) := d.ensureSlot t target
      .ok ⟨some (.constant (addend + .ofNat 64 slot)), some d, t⟩
    | none => .error needsGot
  | some .gotSlotPcRelative =>
    match d? with
    | some d =>
      let (slot, d, t) := d.ensureSlot t target
      .ok ⟨some (.pending .pcRelative (some d.got) (addend + .ofNat 64 slot + 4)), some d, t⟩
    | none => .error needsGot
  | some .gotRelative => if d?.isSome then .ok (keep .gotOffset addend) else .error needsGot
  | some .gotBasePcRelative =>
    match d? with
    | some d => .ok ⟨some (.pending .pcRelative (some d.got) (addend + 4)), some d, t⟩
    | none => .error needsGot
  | some .pcRelative => .ok (keep .pcRelative (addend + 4))
  | some .absolute =>
    if (t.get target).isImport && d?.isSome then
      .error (.importAddress type (t.get target).text (t.get owner).text)
    else .ok (keep .absolute addend)

/-- Lowers a reference to an import of one of the linker's own kinds. -/
def lowerImport (d : DynamicTables) (t : SymbolTable) (owner : SymbolId)
    (r : Relocation SymbolId) (kind : Kind) (target : SymbolId) (addend : Word64) :
    Except LowerError Lowered :=
  let unsupported : LowerError :=
    .importReference kind (t.get target).text (t.get owner).text r.offset
  match kind with
  | .pcRelative =>
    let (stub, d, t) := d.ensureStub t target
    .ok ⟨some (.pending .pcRelative (some d.plt) (.ofNat 64 stub)), some d, t⟩
  | .call =>
    let (stub, d, t) := d.ensureStub t target
    .ok ⟨some (.pending .call (some d.plt) (branchToStub addend stub)), some d, t⟩
  | .absolute =>
    if (t.get owner).kind.isWritable && r.size = 4 then
      let (index, d, t) := d.ensureIndex t target
      let (d, t) := d.addRelocation t owner r.offset index Elf.RelocationType.globDat
      .ok ⟨some (.constant addend), some d, t⟩
    else .error unsupported
  | _ => .error unsupported

/-- Lowers one relocation of a symbol. -/
def lowerRelocation (external : Bool) (d? : Option DynamicTables) (t : SymbolTable)
    (owner : SymbolId) (r : Relocation SymbolId) : Except LowerError Lowered :=
  match r.outcome with
  | .pending (.elf type) none _ => .error (.noTarget (t.get owner).text (.elf type) r.offset)
  | .pending (.elf type) (some target) addend => lowerRaw external d? t owner type target addend
  | .pending kind (some target) addend =>
    match d? with
    | some d =>
      if (t.get target).isImport then d.lowerImport t owner r kind target addend
      else .ok ⟨some r.outcome, some d, t⟩
    | none => .ok ⟨some r.outcome, none, t⟩
  | outcome => .ok ⟨some outcome, d?, t⟩

/-- The tables and symbols during lowering. -/
abbrev Lowering := Option DynamicTables × SymbolTable

/-- Lowers relocations of a symbol one after the other. `done` are those before them; if one
cannot be lowered, the symbol is left with them only. -/
def lowerRelocations (external : Bool) (owner : SymbolId) :
    (done : List (Relocation SymbolId)) → List (Relocation SymbolId) → Lowering →
      Except (Failure LowerError Lowering) Lowering
  | done, [], (d?, t) => .ok (d?, t.modify owner fun s => { s with relocations := done })
  | done, r :: rest, (d?, t) =>
    match lowerRelocation external d? t owner r with
    | .ok lowered =>
      let kept := (lowered.outcome.map fun outcome => { r with outcome }).toList
      lowerRelocations external owner (done ++ kept) rest (lowered.tables, lowered.symbols)
    | .error reason =>
      .error ⟨reason, d?, t.modify owner fun s => { s with relocations := done }⟩

/-- Lowers the relocations of all reachable symbols, the tables apart. Without tables, references to
imports stay as they are. -/
def lower (external : Bool) (d? : Option DynamicTables) (t : SymbolTable) :
    Except (Failure LowerError Lowering) Lowering :=
  let tables := (d?.map all).getD []
  t.ids.foldlM (fun (d?, t) id =>
    let s := t.get id
    if !s.reachable || s.relocations.isEmpty || tables.contains id then .ok (d?, t)
    else lowerRelocations external id [] s.relocations (d?, t)) (d?, t)

end DynamicTables

end ArmLink
