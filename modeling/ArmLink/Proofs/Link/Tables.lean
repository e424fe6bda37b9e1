import ArmLink.Proofs.Link.Stages

/-!
# The tables of a prepared link

Tables are laid out like symbols of the inputs, and their relocations are applied. Since no two of
these patch a common byte, each word of a table is what its relocation amounts to, or what it was
before.
-/

namespace ArmLink.Link

open SymbolTable DynamicTables Layout Resolve
open List hiding all

variable {o : Options} {objects : List Object} {kept u t : SymbolTable} {s s' : Lowering}
  {placed : Placed} {d : DynamicTables} {id target : SymbolId} {r : Relocation SymbolId}
  {addend : Word64} {offset n : Nat}

/-- What the relocations of a prepared link are resolved against. -/
def context (placed : Placed) (t : SymbolTable) : Context := ⟨placed.layout, false, gotAddress t⟩

/-- A prepared link with its tables: `u` are the symbols before and `t` those after they are laid
out. -/
structure Linked (o : Options) (kept : SymbolTable) (placed : Placed) (s s' : Lowering)
    (u t : SymbolTable) (d : DynamicTables) : Prop where
  collected : kept.Collected
  staged : Staged o kept s s' u placed.layout t
  tabled : Tabled o kept s s' u d
  laidOut : ∃ t₀ fills, Computed u placed.layout t t₀ fills
  bare : Keeps bare t placed.table
  applied : ∀ id, AppliedAt (context placed t) t placed.table placed.relocations id

theorem Staged.linked (h : Staged o kept s s' u placed.layout t)
    (happly : Resolve.apply t placed.layout o.isExternal = .ok (placed.table, placed.relocations))
    (hkept : collect o objects = .ok kept) (hneeds : o.needsDynamic = true) :
    ∃ d, Linked o kept placed s s' u t d := by
  obtain ⟨d, htabled⟩ := h.tabled (fresh_of_collect hkept) hneeds
  rw [isExternal_of_needsDynamic hneeds] at happly
  obtain ⟨hbare, happlied⟩ := apply_ok happly
  exact ⟨d, collected hkept, h, htabled, compute_ok (h.sentinels (collected hkept)) h.computed,
    hbare, happlied⟩

theorem linked_of_prepare (h : prepare o objects = .ok placed) (hneeds : o.needsDynamic = true) :
    ∃ kept s s' u t d, Linked o kept placed s s' u t d := by
  obtain ⟨kept, hkept, -⟩ := run_bind_eq_ok.mp h
  obtain ⟨s, s', u, t, hstaged, happly⟩ := staged_of_prepare hkept h
  obtain ⟨d, hlinked⟩ := hstaged.linked happly hkept hneeds
  exact ⟨kept, s, s', u, t, d, hlinked⟩

theorem Staged.last (h : Staged o kept s s' u placed.layout t)
    (happly : Resolve.apply t placed.layout o.isExternal = .ok (placed.table, placed.relocations))
    (hkept : collect o objects = .ok kept) :
    ∃ d?, Evolves [] s' (d?, u) ∧ ∀ d, d? = some d → Linked o kept placed s s' u t d := by
  cases hneeds : o.needsDynamic with
  | true =>
    obtain ⟨d, hlinked⟩ := h.linked happly hkept hneeds
    obtain ⟨d₁, hd₁, hgrows⟩ := hlinked.tabled.grows
    refine ⟨some d, ?_, fun _ hd => Option.some.inj hd ▸ hlinked⟩
    obtain ⟨d₁?, t₁⟩ := s'
    cases hd₁
    exact .dynamic hgrows
  | false =>
    obtain ⟨d?, hevolves⟩ := evolves_finishDynamic h.finished
    refine ⟨d?, hevolves, fun d hd => ?_⟩
    have hstarted := started_of_makeDynamic (collected hkept) h.made
    have hnone : d?.isSome = false :=
      hevolves.isSome.trans ((lower_ok h.lowered).1.isSome.trans (hstarted.isSome.trans hneeds))
    rw [hd] at hnone
    cases hnone

namespace Linked

variable (h : Linked o kept placed s s' u t d)

include h

theorem untouched : Keeps untouched u t := by
  obtain ⟨t₀, fills, hcomputed⟩ := h.laidOut
  exact hcomputed.keeps

theorem found {e : String × SymbolId} (he : e ∈ d.named) : placed.table.find? e.1 0 = some e.2 := by
  rw [h.bare.finds _ _ fun _ => rfl, h.untouched.finds _ _ fun _ => rfl]
  exact h.tabled.found e he

theorem special_of_site (hsite : isSite (u.get id) = true) : (u.get id).special = false := by
  by_cases hid : id ∈ d.all
  · have hready := h.tabled.reached.ready id hid
    simp only [isReady, Bool.and_eq_true, Bool.not_eq_true'] at hready
    exact hready.2
  · obtain ⟨hother, -⟩ := h.tabled.other id hid
    obtain ⟨d₁, -, hgrows⟩ := h.tabled.grows
    obtain ⟨hevolves, -⟩ := lower_ok h.staged.lowered
    have hshell : shell (u.get id) = shell (kept.get id) :=
      ((hevolves.shell.trans hgrows.shell).2 id).trans hother
    refine (congrArg Symbol.special hshell).trans (special_of_isSite h.collected ?_)
    exact (congrArg isSite hshell).symm.trans hsite

theorem site (hsite : isSite (u.get id) = true) : isSite (t.get id) = true := by
  obtain ⟨t₀, fills, hcomputed⟩ := h.laidOut
  exact isSite_of_computed hcomputed (h.special_of_site hsite) hsite

theorem site_table (hid : id ∈ d.all) : isSite (t.get id) = true := by
  have hready := h.tabled.reached.ready id hid
  simp only [isReady, Bool.and_eq_true] at hready
  exact h.site (Bool.and_eq_true_iff.mpr hready.1)

theorem applied_table (hid : id ∈ d.all) :
    ∃ done, Applied (context placed t) t id (placed.table.get id) done := by
  obtain ⟨done, hdone, -⟩ := (h.applied id).site (h.site_table hid)
  exact ⟨done, hdone⟩

theorem relocations_eq (id : SymbolId) : (t.get id).relocations = (u.get id).relocations :=
  (h.untouched.map Symbol.relocations).2 id

theorem data_eq (id : SymbolId) : (t.get id).data = (u.get id).data :=
  (h.untouched.map Symbol.data).2 id

theorem value_eq (id : SymbolId) : (placed.table.get id).value = (t.get id).value :=
  (h.bare.map Symbol.value).2 id

theorem entriesOf_eq (id : SymbolId) : entriesOf (placed.table.get id) = entriesOf (u.get id) :=
  ((h.bare.map entriesOf).2 id).trans ((h.untouched.map entriesOf).2 id)

section

variable (hid : id ∈ d.all)
include hid

/-- The relocations of a table patch its bytes, and no two of them a common byte. -/
theorem filled : Filled (Clean u) (u.get id) := by
  obtain ⟨path, hsound⟩ := h.tabled.sound
  exact hsound.filled id hid

/-- **Settled.** A relocation of a table leaves behind what it amounts to. -/
theorem settled (hr : r ∈ (u.get id).relocations) : ∃ x, settle (context placed t) t id r = .ok x ∧
      (placed.table.get id).data.slice? r.offset r.size = some (.ofNat r.size x.1.toNat) := by
  obtain ⟨before, after, hsplit⟩ := append_of_mem hr
  obtain ⟨done, hdone⟩ := h.applied_table hid
  obtain ⟨x, hsettle, -, -, hslice⟩ := hdone.site ((h.relocations_eq id).trans hsplit)
  refine ⟨x, hsettle, hslice fun r' hr' hoverlap => ?_⟩
  -- those behind it patch what is behind it
  have hsorted := (h.filled hid).sorted
  rw [hsplit] at hsorted
  have hle := (pairwise_cons.mp (pairwise_append.mp hsorted).2.1).1 r' hr'
  rw [Overlap, Relocation.stop, Relocation.stop] at hoverlap
  rw [Relocation.stop] at hle
  omega

theorem word (hr : .pending offset 4 .absolute (some target) addend ∈ (u.get id).relocations) :
    ∃ address, (placed.table.get target).value = some address ∧
      (placed.table.get id).data.slice? offset 4 =
        some (.ofWord (.ofNat 32 address + addend.setWidth 32)) := by
  obtain ⟨x, hsettle, hslice⟩ := h.settled hid hr
  obtain ⟨address, haddress, hvalue⟩ := value_of_settle rfl rfl hsettle
  refine ⟨address, (h.value_eq target).trans haddress, hslice.trans (congrArg some ?_)⟩
  rw [hvalue, ← narrow_ofNat, ← narrow_add]
  exact Bytes.ofNat_eq_ofWord _

theorem value_table (hr : r ∈ (u.get id).relocations) :
    ∃ base, (placed.table.get id).value = some base := by
  obtain ⟨x, hsettle, -⟩ := h.settled hid hr
  obtain ⟨kind, target, addend, houtcome, -⟩ := (h.filled hid).each r hr
  obtain ⟨base, hbase⟩ := base_of_settle rfl houtcome hsettle
  exact ⟨base, (h.value_eq id).trans hbase⟩

theorem slice_of_apart {slice : Bytes} (hslice : (u.get id).data.slice? offset n = some slice)
    (hapart : ∀ r ∈ (u.get id).relocations, r.stop ≤ offset ∨ offset + n ≤ r.offset) :
    (placed.table.get id).data.slice? offset n = some slice := by
  obtain ⟨done, hdone⟩ := h.applied_table hid
  rw [hdone.symbol]
  refine slice?_patched_of_apart (h.data_eq id ▸ hslice) fun x hx => hapart x.1 ?_
  rw [← h.relocations_eq, ← hdone.relocations]
  exact mem_map_of_mem hx

theorem length_table : (placed.table.get id).data.length = (u.get id).data.length := by
  obtain ⟨done, hdone⟩ := h.applied_table hid
  rw [hdone.symbol, length_patched fun x hx => ?_, h.data_eq]
  rw [h.data_eq]
  refine (h.filled hid).stop x.1 ?_
  rw [← h.relocations_eq, ← hdone.relocations]
  exact mem_map_of_mem hx

theorem slice_eq (hapart : ∀ r ∈ (u.get id).relocations, r.stop ≤ offset ∨ offset + n ≤ r.offset) :
    (placed.table.get id).data.slice? offset n = (u.get id).data.slice? offset n := by
  cases hslice : (u.get id).data.slice? offset n with
  | some slice => exact h.slice_of_apart hid hslice hapart
  | none =>
    simp only [Bytes.slice?, h.length_table hid] at hslice ⊢
    split at hslice
    · cases hslice
    · rename_i hle
      exact if_neg hle

end

theorem gotAddress_eq : gotAddress t = (t.get d.got).value := by
  rw [gotAddress, h.untouched.finds _ _ fun _ => rfl,
    h.tabled.found (_, d.got) (mem_of_getElem? (i := 3) rfl)]
  rfl

/-- The entries for words that the loader patches have eight bytes each. -/
theorem apart_rel {k : Nat} (hr : r ∈ (u.get d.rel).relocations) :
    r.stop ≤ 8 * k + 4 ∨ 8 * k + 4 + 4 ≤ r.offset := by
  obtain ⟨path, hsound⟩ := h.tabled.sound
  obtain ⟨asks, hasks⟩ := hsound.asks
  rw [hasks.relocations] at hr
  obtain ⟨j, hj, rfl⟩ := mem_mapIdx.mp hr
  simp only [relEntry, Relocation.pending, Relocation.stop]
  omega

/-- **Entries.** What the loader is told about a word stands in the table of such words: the word's
address, and the entry's index and type. -/
theorem entry {owner : SymbolId} {index type : Nat} (htold : Told u d.rel owner offset index type) :
    ∃ k base, (placed.table.get owner).value = some base ∧
      (placed.table.get d.rel).data.slice? (8 * k) 4 =
        some (.ofWord (.ofNat 32 base + .ofNat 32 offset)) ∧
      (placed.table.get d.rel).data.slice? (8 * k + 4) 4 =
        some (.ofWord (Elf.RelocationType.info (.ofNat 32 index) (.ofNat 32 type))) := by
  obtain ⟨k, hk, hslice⟩ := htold
  have hrel : d.rel ∈ d.all := by simp [all]
  obtain ⟨base, hbase, hword⟩ := h.word hrel hk
  rw [narrow_ofNat] at hword
  exact ⟨k, base, hbase, hword, h.slice_of_apart hrel hslice fun r hr => h.apart_rel hr⟩

end Linked

end ArmLink.Link
