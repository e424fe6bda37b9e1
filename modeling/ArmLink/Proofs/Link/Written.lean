import ArmLink.Proofs.Image.Load
import ArmLink.Proofs.Link.Output

/-!
# The file of a link

What is known of files in general is said here of the file that a link makes.
-/

namespace ArmLink.Link

open Elf Image Layout Resolve SymbolTable

variable {o : Options} {objects : List Object} {kept u t : SymbolTable} {placed : Placed}
  {uuid : Bytes} {image : Array UInt8}

/-- The symbols of `u` got the addresses that they have in `t`, and then their relocations were
applied. -/
structure LaidOut (o : Options) (u t : SymbolTable) (placed : Placed) : Prop where
  sentinels : u.HasSentinels
  computed : compute u o.isRelocatable o.firstSectionIndex = .ok (placed.layout, t)
  applied : apply t placed.layout o.isExternal = .ok (placed.table, placed.relocations)

/-- A link that has gone through all states has been laid out. -/
theorem Staged.laidOut {s s' : DynamicTables.Lowering} (h : Staged o kept s s' u placed.layout t)
    (hkept : collect o objects = .ok kept)
    (happly : apply t placed.layout o.isExternal = .ok (placed.table, placed.relocations)) :
    LaidOut o u t placed :=
  ⟨h.sentinels (collected hkept), h.computed, happly⟩

theorem laidOut_of_prepare (h : prepare o objects = .ok placed) : ∃ u t, LaidOut o u t placed := by
  obtain ⟨kept, hkept, -⟩ := run_bind_eq_ok.mp h
  obtain ⟨s, s', u, t, hstaged, happly⟩ := staged_of_prepare hkept h
  exact ⟨u, t, hstaged.laidOut hkept happly⟩

theorem image_eq_ok : Link.image o placed uuid = .ok image ↔
    ∃ plan, Image.plan placed.table placed.layout o placed.relocations = .ok plan ∧
      plan.write placed.table placed.layout o.buildId uuid = .ok image := by
  constructor
  · intro h
    obtain ⟨plan, hplan, hwrite⟩ := bind_eq_ok.mp h
    exact ⟨plan, mapError_eq_ok.mp hplan, mapError_eq_ok.mp hwrite⟩
  · rintro ⟨plan, hplan, hwrite⟩
    exact bind_eq_ok.mpr ⟨plan, mapError_eq_ok.mpr hplan, mapError_eq_ok.mpr hwrite⟩

theorem exists_image (hprepare : prepare o objects = .ok placed)
    (hplan : ∃ plan, Image.plan placed.table placed.layout o placed.relocations = .ok plan) :
    ∃ image, Link.image o placed (Bytes.zeros 16) = .ok image := by
  obtain ⟨plan, hplan⟩ := hplan
  obtain ⟨image, hwrite, -⟩ := exists_write_of_prepare hprepare hplan (Bytes.length_zeros 16)
  exact ⟨image, image_eq_ok.mpr ⟨plan, hplan, hwrite⟩⟩

namespace LaidOut

variable (h : LaidOut o u t placed)
include h

theorem keeps : Keeps bare t placed.table := (apply_ok h.applied).1

theorem holds (huuid : uuid.length = 16) (himage : Link.image o placed uuid = .ok image) :
    ∃ plan id, Planned placed.table placed.layout o plan ∧
      ∀ part ∈ plan.contents placed.table placed.layout id, Holds image part := by
  obtain ⟨t₀, fills, hc⟩ := compute_ok h.sentinels h.computed
  obtain ⟨hkeeps, happlied⟩ := apply_ok h.applied
  obtain ⟨plan, hplan, hwrite⟩ := image_eq_ok.mp himage
  have hplanned := plan_ok hplan
  obtain ⟨id, -, -, -, hholds⟩ := holds_of_write hc hkeeps happlied hplanned huuid hwrite
  exact ⟨plan, id, hplanned, hholds⟩

theorem loadHeaders (hmode : o.isExternal = false) (huuid : uuid.length = 16)
    (himage : Link.image o placed uuid = .ok image) :
    Image.loadHeaders image = placed.layout.extents.map fun e => stored (loadHeader e) := by
  obtain ⟨t₀, fills, hc⟩ := compute_ok h.sentinels h.computed
  obtain ⟨plan, id, hplanned, hholds⟩ := h.holds huuid himage
  refine loadHeaders_of_holds hc hplanned hmode fun part hpart => hholds part ?_
  simp only [Plan.contents, List.mem_append]
  exact .inl (.inl (.inl hpart))

theorem load (hmode : o.isExternal = false) (huuid : uuid.length = 16)
    (himage : Link.image o placed uuid = .ok image) {s : Section} (hs : s ∈ placed.layout.sections)
    (hsegment : s.segment ≠ .tls) {id : SymbolId} (hid : id ∈ s.symbols) {v i : Nat}
    (hv : (placed.table.get id).value = some v) (hi : i < (placed.table.get id).size) :
    Image.load image (v + i) = some ((placed.table.get id).data.getD i 0) := by
  obtain ⟨t₀, fills, hc⟩ := compute_ok h.sentinels h.computed
  obtain ⟨hkeeps, happlied⟩ := apply_ok h.applied
  obtain ⟨plan, buildId, hplanned, hholds⟩ := h.holds huuid himage
  refine load_symbol hc hkeeps happlied (h.loadHeaders hmode huuid himage) ?_
    (hc.mem_loaded_of_ne_tls hs hsegment) hid hv hi
  intro id hid part hpart
  refine hholds part ?_
  simp only [Plan.contents, List.mem_append]
  exact .inl (.inr (List.mem_filterMap.mpr ⟨id, hid, hpart⟩))

omit h

end LaidOut

end ArmLink.Link
