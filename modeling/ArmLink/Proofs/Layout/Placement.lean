import ArmLink.Layout.Compute
import ArmLink.Proofs.Alignment
import ArmLink.Proofs.Except
import ArmLink.Proofs.Span

/-!
# Placement of symbols and sections

What the loops over the symbols of a section, and over the sections of a segment, have done once
they have succeeded: the symbols of a section are packed within it, in their order, and the
sections are packed behind the place where the first of them may start.
-/

namespace ArmLink

open Layout ArmLink.Span List

variable {places : List Place} {input : List (Section × SectionId)} {cursor stop : Nat}
  {fills : List Fill}

def Layout.Place.span (t : SymbolTable) (p : Place) : Span :=
  .ofLength p.address (t.get p.symbol).size

namespace Section

def span (s : Section) : Span := .ofLength s.address s.length

/-- The section without what placement decides. -/
def plain (s : Section) : Section :=
  { s with alignment := .byte, address := 0, length := 0, elfIndex := 0 }

/-- The symbols of the section at position `id` have these places, one after the other from `origin`
on, each aligned as it asks. -/
structure Filled (t : SymbolTable) (id : SectionId) (origin : Nat) (s : Section)
    (places : List Place) : Prop where
  symbols : places.map (·.symbol) = s.symbols
  sectionId : ∀ p ∈ places, p.sectionId = id
  packed : Packed origin (origin + s.length) (places.map (Place.span t))
  aligned : ∀ p ∈ places, (symbolAlignment (t.get p.symbol)).value ∣ p.address

end Section

namespace Layout

variable {t : SymbolTable} {s : Section} {sectionId : SectionId}

theorem Placing.after_eq_ok {α : Type} {earlier : List Place} {step : Placing α} {a : α} :
    Placing.after earlier step = .ok a ↔ step = .ok a :=
  mapError_eq_ok

theorem placeSymbols_ok {ids : List SymbolId}
    (h : placeSymbols t s sectionId ids cursor = .ok (places, stop)) :
    places.map (·.symbol) = ids ∧ (∀ p ∈ places, p.sectionId = sectionId) ∧
      Packed cursor stop (places.map (Place.span t)) ∧
      ∀ p ∈ places, (symbolAlignment (t.get p.symbol)).value ∣ p.address := by
  induction ids generalizing cursor places with
  | nil =>
    cases h
    exact ⟨rfl, fun _ hp => (nomatch hp), .nil (Nat.le_refl _), fun _ hp => nomatch hp⟩
  | cons id ids ih =>
    rw [placeSymbols] at h
    split at h
    · cases h
    · rename_i address hup
      obtain ⟨rfl, -⟩ := Alignment.alignUp?_eq_some hup
      dsimp only at h
      split at h
      · obtain ⟨⟨rest, stop'⟩, hrest, ⟨⟩⟩ := bind_pure_eq_ok.mp h
        obtain ⟨hids, hsec, hpack, halign⟩ := ih (Placing.after_eq_ok.mp hrest)
        refine ⟨?_, ?_, ?_, ?_⟩
        · rw [map_cons, hids]
        · intro p hp
          rcases mem_cons.mp hp with rfl | hp
          · rfl
          · exact hsec p hp
        · exact .cons (Alignment.le_alignUp ..) (Nat.le_add_right ..) hpack
        · intro p hp
          rcases mem_cons.mp hp with rfl | hp
          · exact Alignment.dvd_alignUp ..
          · exact halign p hp
      · cases h

theorem placeSection_ok {start : Nat} {s' : Section}
    (h : placeSection t s sectionId start = .ok (s', places)) :
    s'.plain = s.plain ∧ start ≤ s'.address ∧
      s'.address = s'.alignment.alignUp start ∧
      s'.Filled t sectionId s'.address places := by
  rw [placeSection] at h
  split at h
  · cases h
  · rename_i address hup
    obtain ⟨haddress, -⟩ := Alignment.alignUp?_eq_some hup
    obtain ⟨⟨places', stop⟩, hplaces, ⟨⟩⟩ := bind_pure_eq_ok.mp h
    obtain ⟨hids, hsec, hpack, halign⟩ := placeSymbols_ok hplaces
    refine ⟨rfl, ?_, haddress, hids, hsec, ?_, halign⟩
    · show start ≤ address
      rw [haddress]
      exact Alignment.le_alignUp ..
    · have hle := hpack.le
      show Packed address (address + (stop - address)) _
      rw [Nat.add_sub_of_le hle]
      exact hpack

abbrev Fill := Section × List Place

/-- A numbered section as it was given, and as it was placed. -/
def Fills (t : SymbolTable) (i : Section × SectionId) (f : Fill) : Prop :=
  f.1.plain = i.1.plain ∧ f.1.Filled t i.2 f.1.address f.2

theorem Fills.plain_eq (h : Forall₂ (Fills t) input fills) :
    fills.map (·.1.plain) = input.map (·.1.plain) := by
  induction h with
  | nil => rfl
  | cons hf _ ih => rw [map_cons, map_cons, hf.1, ih]

theorem Fills.getElem? (h : Forall₂ (Fills t) input fills) {i : Nat} {f : Fill}
    (hf : fills[i]? = some f) : ∃ s, input[i]? = some s ∧ Fills t s f := by
  induction h generalizing i with
  | nil => cases hf
  | cons hhead _ ih =>
    cases i with
    | zero =>
      cases hf
      exact ⟨_, rfl, hhead⟩
    | succ i => exact ih hf

theorem placeSections_ok {sections : List Section}
    (h : placeSections t input cursor = .ok (sections, places, stop)) : ∃ fills : List Fill,
      sections = fills.map (·.1) ∧ places = fills.flatMap (·.2) ∧
      Forall₂ (Fills t) input fills ∧ Packed cursor stop (sections.map Section.span) ∧
      (∀ f ∈ fills.head?, f.1.address = f.1.alignment.alignUp cursor) ∧
      (cursor :: (sections.map Section.span).map (·.stop)).getLast? = some stop := by
  induction input generalizing cursor sections places with
  | nil =>
    cases h
    exact ⟨[], rfl, rfl, .nil, .nil (Nat.le_refl _), nofun, rfl⟩
  | cons i input ih =>
    obtain ⟨⟨s', here⟩, hs, h⟩ := bind_eq_ok.mp h
    obtain ⟨⟨others, more, stop'⟩, hrest, ⟨⟩⟩ := bind_pure_eq_ok.mp h
    obtain ⟨hplain, hstart, haddress, hfilled⟩ := placeSection_ok hs
    obtain ⟨fills, rfl, rfl, hfills, hpack, -, hlast⟩ := ih (Placing.after_eq_ok.mp hrest)
    refine ⟨(s', here) :: fills, rfl, rfl, .cons ⟨hplain, hfilled⟩ hfills, ?_, ?_, hlast⟩
    · exact .cons hstart (Nat.le_add_right ..) hpack
    · intro f hf
      cases hf
      exact haddress

end Layout

end ArmLink
