import ArmLink.Elf.RelocationType

/-!
# Relocations

A relocation names a patch site in the bytes of the symbol that owns it and tells what has become
of it:

* `pending` — the value is still to be computed from a target and an addend;
* `constant` — the value is known and just has to be written;
* `deferred` — a host linker will finish the work, on the addend written in place.

The type of targets is a parameter: a name in an object file, an index in a symbol table.
-/

namespace ArmLink

/-- Addends and values of relocations: 64 bits, in two's complement where a sign matters. -/
abbrev Word64 := BitVec 64

/-- A number as 64 bits hold it. -/
def Word64.wrap (n : Nat) : Nat := (BitVec.ofNat 64 n).toNat

/-- A difference in 64 bits, which wraps around below zero. -/
def Word64.minus (m n : Nat) : Nat := (BitVec.ofNat 64 m - BitVec.ofNat 64 n).toNat

namespace Relocation

/-- How the value of a relocation is computed, with `S` the target's address, `A` the addend, `P`
the address of the patched bytes and `GOT` that of the global offset table. -/
inductive Kind where
  /-- `S + A` -/
  | absolute
  /-- `S + A - (P + size)` -/
  | pcRelative
  /-- a branch, whose instruction is the addend -/
  | call
  /-- the offset of a thread-local symbol from the thread pointer -/
  | tls
  /-- the target's size plus `A` -/
  | size
  /-- `S + A - GOT` -/
  | gotOffset
  | plt0
  | plt1
  | plt2
  | sectionIndex
  /-- an ELF type given by an object file, to be turned into one of the kinds above -/
  | elf (type : Nat)
  deriving DecidableEq, Repr, Inhabited

/-- How messages name a kind. -/
def Kind.text : Kind → String
  | absolute => "Absolute"
  | pcRelative => "PcRelative"
  | call => "Call"
  | tls => "Tls"
  | size => "Size"
  | gotOffset => "GotOffset"
  | plt0 => "Plt0"
  | plt1 => "Plt1"
  | plt2 => "Plt2"
  | sectionIndex => "SectionIndex"
  | elf type => Elf.RelocationType.name type

/-- What has become of a relocation. -/
inductive Outcome (τ : Type) where
  /-- to be resolved; without a target the value is the addend -/
  | pending (kind : Kind) (target : Option τ) (addend : Word64)
  /-- the value is known -/
  | constant (value : Word64)
  /-- left to the host linker, on the addend in place -/
  | deferred (kind : Kind) (target : τ) (addend : Word64)
  deriving DecidableEq, Repr, Inhabited

end Relocation

open Relocation in
/-- A patch site in the bytes of a symbol. -/
structure Relocation (τ : Type) where
  offset : Nat
  size : Nat
  outcome : Outcome τ
  deriving DecidableEq, Repr, Inhabited

namespace Relocation

variable {τ υ : Type}

/-- A relocation that is still to be resolved. -/
def pending (offset size : Nat) (kind : Kind) (target : Option τ) (addend : Word64) :
    Relocation τ :=
  ⟨offset, size, .pending kind target addend⟩

/-- The target, unless there is none or the value is known already. -/
def target? (r : Relocation τ) : Option τ :=
  match r.outcome with
  | .pending _ target _ => target
  | .constant _ => none
  | .deferred _ target _ => some target

/-- The kind, unless the value is known already. -/
def kind? (r : Relocation τ) : Option Kind :=
  match r.outcome with
  | .pending kind _ _ | .deferred kind _ _ => some kind
  | .constant _ => none

/-- The offset just past the patched bytes. -/
def stop (r : Relocation τ) : Nat := r.offset + r.size

/-- The relocation moved further into its owner, which has less than 2^32 bytes. -/
def shifted (r : Relocation τ) (delta : Nat) : Relocation τ := { r with offset := r.offset + delta }

/-- The outcome with its target renamed. -/
def Outcome.map (f : τ → υ) : Outcome τ → Outcome υ
  | .pending kind target addend => .pending kind (target.map f) addend
  | .constant value => .constant value
  | .deferred kind target addend => .deferred kind (f target) addend

def map (f : τ → υ) (r : Relocation τ) : Relocation υ := ⟨r.offset, r.size, r.outcome.map f⟩

end Relocation

end ArmLink
