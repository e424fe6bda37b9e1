import ArmLink.Elf.Header
import ArmLink.Options

/-!
# Resolution of relocations

Once symbols have addresses, a relocation has a value. If a host linker finishes the link, what
depends on the final addresses is left to it: the relocation is restated relative to the outermost
symbol around its target.
-/

namespace ArmLink

/-- What a relocation amounts to. -/
inductive Resolved where
  | value (v : Word64)
  /-- the addend is written, and the host linker adds the address of the target -/
  | deferred (kind : Relocation.Kind) (target : SymbolId) (addend : Word64)
  deriving DecidableEq, Repr

/-- Why a value does not fit the bytes it is written to. -/
inductive FitError where
  | badSize (size : Nat)
  | tooBig (value : Word64) (size : Nat)
  deriving DecidableEq, Repr

def FitError.message : FitError → String
  | badSize size => s!"bad relocation size {size}"
  | tooBig value size =>
    "address is too big: " ++ Text.hex value.toNat ++ s!" doesn't fit in {size} bytes"

/-- Where a relocation stands and what it refers to, in messages. -/
structure Site where
  kind : Relocation.Kind
  target : String
  owner : String
  offset : Nat
  deriving DecidableEq, Repr

inductive ResolveError where
  | outOfBounds (owner : String) (offset size ownerSize : Nat)
  | undefined (site : Site)
  | unreachable (site : Site)
  /-- its target is an import, and there is no dynamic loader to provide it -/
  | importWithoutLoader (site : Site)
  /-- its target is provided by a host linker, and there is none -/
  | hostObjectWithoutHost (target : String)
  /-- its target has no address -/
  | targetWithoutAddress (site : Site)
  | ownerWithoutAddress (owner : String)
  | raw (type : Nat) (owner : String) (offset : Nat)
  | machine (site : Site) (reason : Arm.Machine.ResolveError)
  | unknownKind (kind : Relocation.Kind)
  | fit (site : Site) (reason : FitError)
  | hostKind (site : Site)
  | missingSection (root : String)
  | hostType (owner : String) (offset : Nat) (reason : Arm.Machine.HostError)
  deriving DecidableEq, Repr

def ResolveError.report : ResolveError → Report
  | outOfBounds owner offset size ownerSize =>
    .plain s!"{owner}: invalid relocation {offset}+{size} not in [0,{ownerSize})"
  | undefined s =>
    .plain (s!"undefined symbol " ++ s.target ++ " referenced by " ++ s.owner
      ++ s!" at offset {s.offset}")
  | unreachable s => .plain ("unreachable symbol " ++ s.target ++ " referenced by " ++ s.owner)
  | importWithoutLoader s =>
    .plain ("dynamic import " ++ s.target ++ " referenced by " ++ s.owner ++ " with a "
      ++ s.kind.text ++ " relocation, but the output has no dynamic symbol table")
  | hostObjectWithoutHost target =>
    .plain (s!"undefined symbol {target}: it is supplied by a host object, which needs "
      ++ "-linkmode=external")
  | targetWithoutAddress s =>
    .plain (s.owner ++ " references " ++ s.target ++ ", which hasn't been given an address")
  | ownerWithoutAddress owner =>
    .plain s!"{owner} has relocations, but hasn't been given an address"
  | raw type owner offset =>
    .plain ("unsupported relocation " ++ Elf.RelocationType.name type
      ++ s!" in {owner} at offset {offset}")
  | machine s reason =>
    (Report.plain reason.message).within ("Failed to apply " ++ s.kind.text
      ++ " relocation against " ++ s.target ++ " in " ++ s.owner ++ s!" at offset {s.offset}")
  | unknownKind kind => .plain ("unsupported relocation " ++ kind.text)
  | fit s reason =>
    (Report.plain reason.message).within (s.kind.text ++ " relocation against " ++ s.target
      ++ " in " ++ s.owner ++ s!" at offset {s.offset}")
  | hostKind s =>
    .plain ("unsupported relocation: " ++ s.kind.text ++ " against " ++ s.target ++ " in "
      ++ s.owner ++ " can't be used with -linkmode=external")
  | missingSection root => .plain s!"missing section for {root}"
  | hostType owner offset reason =>
    (Report.plain reason.message).within s!"{owner} at offset {offset}"

namespace Resolve

open Relocation (Kind)

/-- Whether a value can be read back from that many bytes, signed or unsigned. A distance of four
bytes must fit as a signed number. -/
def checkFit (kind : Kind) (size : Nat) (value : Word64) : Except FitError Unit :=
  let isSigned (half : Nat) : Bool := -half ≤ value.toInt && value.toInt < half
  let isUnsigned (bound : Nat) : Bool := value.toNat < bound
  let fits (ok : Bool) : Except FitError Unit :=
    if ok then .ok () else .error (.tooBig value size)
  match size with
  | 8 => .ok ()
  | 4 =>
    if kind = .pcRelative then fits (isSigned 0x80000000)
    else fits (isSigned 0x80000000 || isUnsigned 0x100000000)
  | 2 => fits (isUnsigned 0x10000 || isSigned 0x8000)
  | 1 => fits (isUnsigned 0x100 || isSigned 0x80)
  | _ => .error (.badSize size)

/-- What relocations are resolved against. -/
structure Context where
  layout : Layout
  external : Bool
  /-- the address of the global offset table, if there is one -/
  got : Option Nat

/-- Restates a relocation for the host linker. `none` if it can be resolved without its help: if
the target is a constant, if the distance between two places of one section is wanted, or if no
address is involved. -/
def restate (t : SymbolTable) (owner : SymbolId) (kind : Kind) (target : SymbolId)
    (addend : Word64) (size : Nat) (site : Site) : Except ResolveError (Option Resolved) :=
  if (t.get target).kind = .constant then .ok none
  else
    let (root, delta) := t.outermost target
    let r := t.get root
    let elsewhere := r.kind = .dynamicImport ∨ r.kind = .hostObject
    let defer (addend : Word64) : Except ResolveError (Option Resolved) :=
      if ¬ elsewhere ∧ r.sectionId.isNone then .error (.missingSection r.text)
      else .ok (some (.deferred kind root addend))
    match kind with
    | .absolute | .tls => defer (addend + .ofNat 64 delta)
    | .pcRelative =>
      if ¬ elsewhere ∧ r.sectionId = (t.get owner).sectionId then .ok none
      else defer (addend + .ofNat 64 delta - .ofNat 64 size)
    | .call =>
      defer ((Arm.Branch.advance (addend.setWidth 32) (.ofNat 32 (delta / 4))).setWidth 64)
    | .size | .sectionIndex => .ok none
    | _ => .error (.hostKind site)

/-- The value of a relocation with a target, once nothing is left to the host linker. -/
def valueOf (c : Context) (t : SymbolTable) (owner : SymbolId) (r : Relocation SymbolId)
    (kind : Kind) (target : SymbolId) (addend : Word64) (site : Site) :
    Except ResolveError Word64 := do
  let s := t.get target
  let address : Except ResolveError Word64 :=
    match s.value with
    | some value => .ok (.ofNat 64 value)
    | none => .error (.targetWithoutAddress site)
  match (t.get owner).value with
  | none => .error (.ownerWithoutAddress (t.get owner).text)
  | some base =>
    let place : Word64 := .ofNat 64 (base + r.offset)
    match kind with
    | .absolute => return (← address) + addend
    | .pcRelative => return (← address) + addend - (place + .ofNat 64 r.size)
    | .size => return .ofNat 64 s.size + addend
    | .tls => return .ofNat 64 Arm.Machine.tlsBias + addend + (← address)
    | .sectionIndex =>
      let root := t.get (t.outermost target).1
      match root.sectionId with
      | some id => return .ofNat 64 (c.layout.getSection id).elfIndex
      | none => return .ofNat 64 Elf.SymbolEntry.absoluteIndex
    | .elf type => .error (.raw type (t.get owner).text r.offset)
    | kind =>
      let inputs : Arm.Machine.Inputs :=
        { target := ← address, addend, place, got := c.got.map (.ofNat 64) }
      match Arm.Machine.resolve? kind inputs with
      | .error reason => .error (.machine site reason)
      | .ok (some value) => return value
      | .ok none => .error (.unknownKind kind)

/-- What a relocation of a symbol amounts to. Nothing is changed. -/
def resolve (c : Context) (t : SymbolTable) (owner : SymbolId) (r : Relocation SymbolId) :
    Except ResolveError Resolved := do
  let s := t.get owner
  if s.size < r.stop then .error (.outOfBounds s.text r.offset r.size s.size)
  else
    match r.outcome with
    | .constant value => return .value value
    | .deferred kind target addend => return .deferred kind target addend
    | .pending _ none addend => return .value addend
    | .pending kind (some target) addend =>
      let g := t.get target
      let site : Site := ⟨kind, g.text, s.text, r.offset⟩
      if !g.isDefined then .error (.undefined site)
      else if !g.reachable then .error (.unreachable site)
      else
        let restated ←
          if c.external then restate t owner kind target addend r.size site
          else if g.kind = .dynamicImport then .error (.importWithoutLoader site)
          else if g.kind = .hostObject then .error (.hostObjectWithoutHost g.text)
          else pure none
        match restated with
        | some resolved => return resolved
        | none =>
          let value ← valueOf c t owner r kind target addend site
          match checkFit kind r.size value with
          | .ok () => return .value value
          | .error reason => .error (.fit site reason)

end Resolve

/-! ## Application -/

/-- A relocation that the host linker applies. -/
structure HostRelocation where
  owner : SymbolId
  offset : Nat
  type : Nat
  /-- the symbol whose address is added -/
  target : SymbolId
  deriving DecidableEq, Repr

namespace Resolve

/-- What a resolved relocation leaves behind: the value to write, what has become of the relocation,
and a relocation for the host linker if there is one. -/
def record (owner : SymbolId) (ownerText : String) (r : Relocation SymbolId) :
    Resolved → Except ResolveError (Word64 × Relocation.Outcome SymbolId × Option HostRelocation)
  | .value v => .ok (v, .constant v, none)
  | .deferred kind target addend =>
    match Arm.Machine.hostType kind r.size (addend.setWidth 32) with
    | .ok type => .ok (addend, .deferred kind target addend, some ⟨owner, r.offset, type, target⟩)
    | .error reason => .error (.hostType ownerText r.offset reason)

/-- A symbol with a value written at a relocation, and the relocation's outcome noted. -/
def patchSymbol (index : Nat) (r : Relocation SymbolId) (v : Word64)
    (outcome : Relocation.Outcome SymbolId) (s : Symbol) : Symbol :=
  { s with
    data := Bytes.patch s.data r.offset (Bytes.ofNat r.size v.toNat)
    relocations := s.relocations.set index { r with outcome } }

/-- Applies the relocation at a position of a symbol. -/
def applyAt (c : Context) (owner : SymbolId) (t : SymbolTable) (index : Nat) :
    Except ResolveError (SymbolTable × Option HostRelocation) := do
  match (t.get owner).relocations[index]? with
  | none => return (t, none)
  | some r =>
    let resolved ← resolve c t owner r
    let (v, outcome, host) ← record owner (t.get owner).text r resolved
    return (t.modify owner (patchSymbol index r v outcome), host)

/-- Applies relocations of a symbol one after the other. -/
def applyAll (c : Context) (owner : SymbolId) :
    List Nat → SymbolTable →
      Except (Failure ResolveError SymbolTable) (SymbolTable × List HostRelocation)
  | [], t => .ok (t, [])
  | index :: rest, t => do
    let (t, host) ← (applyAt c owner t index).mapError (⟨·, t⟩)
    let (t, hosts) ← applyAll c owner rest t
    return (t, host.toList ++ hosts)

/-- Applies the relocations of symbols one after the other. -/
def applySymbols (c : Context) :
    List SymbolId → SymbolTable →
      Except (Failure ResolveError SymbolTable) (SymbolTable × List HostRelocation)
  | [], t => .ok (t, [])
  | id :: rest, t => do
    let s := t.get id
    let (t, hosts) ←
      if s.reachable && s.kind.isPlaced then applyAll c id (List.range s.relocations.length) t
      else pure (t, [])
    let (t, more) ← applySymbols c rest t
    return (t, hosts ++ more)

/-- The address of the global offset table, if there is one. -/
def gotAddress (t : SymbolTable) : Option Nat :=
  (t.find? Elf.SectionName.got 0).bind fun id => (t.get id).value

/-- Resolves every relocation of every reachable symbol that has a place, and writes the values into
the symbols' bytes. Gives what is left to the host linker. -/
def apply (t : SymbolTable) (layout : Layout) (external : Bool) :
    Except (Failure ResolveError SymbolTable) (SymbolTable × List HostRelocation) :=
  applySymbols ⟨layout, external, gotAddress t⟩ t.ids t

end Resolve

end ArmLink
