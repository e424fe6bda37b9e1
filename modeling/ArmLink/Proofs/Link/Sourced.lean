import ArmLink.Proofs.Link.Closed
import ArmLink.Proofs.Object.Readable

/-!
# What comes from objects

Until the linker makes its own tables, all that it knows of symbols comes from objects that were
read, and from string variables. A link that a host linker finishes has no such tables, so that this
holds of it until symbols get addresses.
-/

namespace ArmLink

open List

/-- Whether symbols of a kind are tables that the linker makes. -/
def SymbolKind.isTable : SymbolKind → Bool
  | codeTable | readOnlyTable | writableTable => true
  | _ => false

/-- What is known of a symbol because of where it comes from. -/
structure Symbol.Sourced (s : Symbol) : Prop where
  kind : s.kind.isTable = false
  isDeferred : ∀ r ∈ s.relocations, r.isDeferred = false
  /-- if the linker defines it, it has no relocations and lies within no other symbol -/
  special : s.special = true → s.relocations = [] ∧ s.outer = none
  sectionId : s.sectionId = none

namespace SymbolTable

variable {t : SymbolTable} {id : SymbolId}

/-- What is kept lies only within what is kept. -/
def ClosedOutward (t : SymbolTable) : Prop :=
  ∀ id c, t.Kept id → (t.get id).outer = some c → t.Kept c.symbol

theorem ClosedOutward.liesIn (h : t.ClosedOutward) {steps offset : Nat} {root : SymbolId}
    (hlies : LiesIn t steps id root offset) (hid : t.Kept id) : t.Kept root := by
  induction hlies with
  | here => exact hid
  | within houter _ ih => exact ih (h _ _ hid houter)

end SymbolTable

namespace Link

open SymbolTable DynamicTables Layout Resolve

variable {o : Options} {objects : List Object} {kept u t : SymbolTable} {s s' : Lowering}
  {layout : Layout}

/-- A host linker needs no tables, so that nothing but relocations changes before symbols get
addresses. -/
theorem Staged.unrelocated (h : Staged o kept s s' u layout t) (hmode : o.isExternal = true) :
    Keeps unrelocated kept u ∧ ∀ id, kept.Kept id →
      LoweredAt o.isExternal kept.ids (none, kept) (none, u) id := by
  have hneeds : o.needsDynamic = false := Bool.eq_false_iff.mpr fun hneeds => by
    rw [isExternal_of_needsDynamic hneeds] at hmode
    cases hmode
  obtain ⟨hmade, hlower, hfinish, -⟩ := h
  simp only [makeDynamic, hneeds, Bool.false_eq_true, if_false] at hmade
  cases hmade
  obtain ⟨hevolves, hlowered⟩ := lower_ok hlower
  cases hevolves with
  | static hkeeps hrelocations =>
    cases hfinish
    exact ⟨hkeeps, fun id hid => hlowered id not_mem_nil hid⟩

/-- All that a host linker has to know of a link can be traced to objects: the link has the symbols
`u` before they get addresses, and `t` when they have them. -/
structure Traceable (u t : SymbolTable) : Prop where
  sourced : ∀ id, u.Kept id → (u.get id).Sourced
  special : ∀ id, (u.get id).special = true → u.Kept id
  closed : t.Closed
  outward : t.ClosedOutward
  forest : ∃ links, Forest links t

end Link

end ArmLink
