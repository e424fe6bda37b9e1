import ArmLink.Proofs.Image.Numbering

/-!
# What a host linker is told

If a host linker finishes the link, the file has a table of relocations for each section in which
some are left, and a table of all symbols that they may refer to.
-/

namespace ArmLink

open Elf SymbolTable List

variable {groups : List RelocationGroup} {e : PlanError}

namespace Image

open Layout Resolve

variable {t t' : SymbolTable} {l : Layout} {o : Options} {hosts : List HostRelocation} {p : Plan}
  {host : HostRelocation}

/-! ## Entries -/

/-- A relocation of which a host linker can be told. -/
structure Passable (t : SymbolTable) (l : Layout) (host : HostRelocation) : Prop where
  /-- it patches a symbol with an address in a section, not before the section and in 64 bits -/
  place : ∃ i s v, l.sections[i]? = some s ∧ (t.get host.owner).sectionId = some i ∧
    (t.get host.owner).value = some v ∧ s.address ≤ v ∧ v + host.offset < 2 ^ 64
  target : isListed t l true host.target = true

/-- What is listed depends neither on bytes nor on relocations. -/
theorem isListed_congr (h : Keeps bare t t') (l : Layout) (external : Bool) (id : SymbolId) :
    isListed t' l external id = isListed t l external id := by
  have houter := (h.read Symbol.outer fun _ => rfl).outermost
  have hkind := (h.read Symbol.kind fun _ => rfl).2
  have hvalue := (h.read Symbol.value fun _ => rfl).2
  have hspecial := (h.read Symbol.special fun _ => rfl).2
  have hreach := (h.read Symbol.reachable fun _ => rfl).2
  have hsection := (h.read Symbol.sectionId fun _ => rfl).2
  simp only [isListed, placeOf?, houter, hkind, hvalue, hspecial, hreach, hsection]

/-- What can be told before relocations are applied can be told afterwards. -/
theorem Passable.congr (h : Passable t l host) (hkeeps : Keeps bare t t') : Passable t' l host := by
  obtain ⟨i, s, v, hs, hi, hv, hplace⟩ := h.place
  have hsection := hkeeps.read Symbol.sectionId fun _ => rfl
  have hvalue := hkeeps.read Symbol.value fun _ => rfl
  exact ⟨⟨i, s, v, hs, (hsection.2 _).trans hi, (hvalue.2 _).trans hv, hplace⟩,
    (isListed_congr hkeeps l true host.target).trans h.target⟩

end Image

end ArmLink
