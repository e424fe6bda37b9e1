import ArmLink.Proofs.Image.HostTables
import ArmLink.Proofs.Link.Sourced

/-!
# Relocations that are passed on

A link that a host linker finishes leaves relocations to it. Each of them patches a symbol that has
an address, and refers to a symbol that the file lists, because whatever is kept can be traced to
objects.
-/

namespace ArmLink

open SymbolTable Layout

theorem Layout.isTable_promotedKind {s : Symbol} {kind : SymbolKind}
    (h : promotedKind s = .ok kind) : kind.isTable = s.kind.isTable := by
  unfold promotedKind at h
  split at h
  · cases h
  · split at h
    · cases h
      rfl
    · split at h <;> cases h
      all_goals simp_all [SymbolKind.isTable]

theorem Image.isSectioned_of_isPlaced {s : Symbol} (hplaced : s.kind.isPlaced = true)
    (htable : s.kind.isTable = false) : isSectioned s = true := by
  unfold isSectioned Symbol.isDefined
  cases hkind : s.kind <;> simp_all [SymbolKind.isPlaced, SymbolKind.isTable]

namespace Link

open Image Resolve

variable {o : Options} {objects : List Object} {u t t₀ : SymbolTable} {l : Layout}
  {fills : List Fill} {placed : Placed} {id target : SymbolId} {host : HostRelocation}

namespace Traceable

theorem isCandidate (h : Traceable u t) (hc : Computed u l t t₀ fills) (hid : t.Kept id)
    (hrelocations : (t.get id).relocations ≠ []) (houter : (t.get id).outer = none) :
    isCandidate (u.get id) = true := by
  have hkept := kept_of_computed h.special hc hid
  have hkeeps : Keeps (fun s => (s.relocations, s.outer)) u t :=
    hc.keeps.map fun s => (s.relocations, s.outer)
  obtain ⟨hsame, hsameOuter⟩ := Prod.mk.inj (hkeeps.2 id)
  have hspecial : (u.get id).special = false := Bool.eq_false_iff.mpr fun hspecial => by
    rw [hsame, ((h.sourced id hkept).special hspecial).1] at hrelocations
    exact hrelocations rfl
  have hreach : (u.get id).reachable = true := hkept
  rw [Layout.isCandidate, hreach, hspecial, ← hsameOuter, houter]
  rfl

theorem isListed (h : Traceable u t) (hc : Computed u l t t₀ fills) (htarget : t.Kept target)
    (hfound : CanBeFound (t.get (t.outermost target).1)) :
    isListed t l true (t.outermost target).1 = true := by
  obtain ⟨links, hforest⟩ := h.forest
  obtain ⟨⟨steps, offset, hlies, -⟩, hroot⟩ := hforest.outermost target
  -- the way outward stays within what is kept
  have hkept := h.outward.liesIn hlies htarget
  generalize (t.outermost target).1 = root at hfound hroot hkept
  refine isListed_iff.mpr ⟨hkept, ?_⟩
  rcases hfound with himport | hhost | hsection
  · exact ⟨_, .elsewhere (by rw [himport]; rfl) rfl⟩
  · exact ⟨_, .elsewhere (by rw [hhost]; rfl) rfl⟩
  · -- it had no section before, so the layout or the definition of a sentinel gave it one
    have hsourced := h.sourced root (kept_of_computed h.special hc hkept)
    have houter := hc.keeps.read Symbol.outer fun _ => rfl
    obtain ⟨hvalue, hlisted⟩ := hc.place_of_sectionId ((houter.2 root).symm.trans hroot)
      hsourced.sectionId hsection
    obtain ⟨v, hv⟩ := Option.ne_none_iff_exists'.mp hvalue
    obtain ⟨i, hi⟩ := Option.ne_none_iff_exists'.mp hsection
    refine ⟨_, .inSection ?_ hv (i := i) ?_⟩
    · rcases hlisted with hmem | hsentinel
      · obtain ⟨hcandidate, hplaced⟩ := hc.mem_symbols.mp hmem
        have hkind := isTable_promotedKind (hc.kind_of_isCandidate hcandidate)
        exact isSectioned_of_isPlaced hplaced (hkind.trans hsourced.kind)
      · have hkinds : ∀ kind ∈ sentinelKinds, kind.isPlaced = true ∧ kind.isTable = false := by
          decide
        obtain ⟨hplaced, htable⟩ := hkinds _ hsentinel
        exact isSectioned_of_isPlaced hplaced htable
    · rw [sectionOf?, outermost_of_outer hroot, hi]

end Traceable

/-- A program for a host linker to finish. It calls an import, and its code and its data refer to
each other, to a part of the data and to bytes of its own file. -/
def hostSample : List Object :=
  [{ path := "a"
     symbols :=
       [programCode [0, 0, 0, 0, 0, 0, 0, 0]
          [.pending 0 4 .call (some "puts") 0xebfffffe,
           .pending 4 4 .absolute (some "part") 0],
        programTable "table" 8 [0, 0, 0, 0, 0, 0, 0, 0]
          [.pending 0 4 .absolute (some "main") 0, .pending 4 4 .absolute (some "own") 0],
        { programTable "part" 4 [] [] with outer := some ("table", 4) },
        { programTable "own" 4 [1, 2, 3, 4] [] with isLocal := true }]
     imports := [{ name := "puts" }] }]

end Link

end ArmLink
