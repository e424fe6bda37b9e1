import ArmLink.Proofs.Link.Calls
import ArmLink.Proofs.Link.Written
import ArmLink.Proofs.Resolve.HostLink

/-!
# Alignments at run time

A symbol may ask for an alignment, and layout gives it an address that is a multiple of it. That is
the address for which the file is made. A file that may be loaded anywhere is moved by a multiple of
what its segments ask for, which is a page, and thread-local data is found behind two words that the
thread pointer leads to.
-/

namespace ArmLink

open List

namespace Layout

variable {t t₁ t₀ : SymbolTable} {l : Layout} {fills : List Fill} {id : SymbolId} {a : Alignment}

theorem value_dvd_symbolAlignment {s : Symbol} (h : s.alignment = some a) :
    a.value ∣ (symbolAlignment s).value := by
  unfold symbolAlignment
  rw [h]
  split
  · exact Alignment.value_dvd_max a .word
  · exact Nat.dvd_refl _

/-- **Addresses.** A symbol of a section has an address that is a multiple of the alignment that it
asks for. -/
theorem Computed.dvd_value (h : Computed t l t₁ t₀ fills) (hid : id ∈ l.symbols)
    (ha : (t₁.get id).alignment = some a) : ∃ v, (t₁.get id).value = some v ∧ a.value ∣ v := by
  obtain ⟨s, hs, hid⟩ := mem_flatMap.mp hid
  obtain ⟨i, hi⟩ := getElem?_of_mem hs
  obtain ⟨-, v, hv, hdvd⟩ := h.value_of_mem hi hid
  exact ⟨v, hv, Nat.dvd_trans (value_dvd_symbolAlignment ha) hdvd⟩

end Layout

namespace Resolve

open SymbolTable

variable {c : Context} {t : SymbolTable} {owner target : SymbolId} {r : Relocation SymbolId}

/-- The offset of a thread-local symbol from the thread pointer. -/
theorem value_of_resolve_tls {addend w : Word64} {v : Nat} (hinternal : c.external = false)
    (hr : r.outcome = .pending .tls (some target) addend) (hv : (t.get target).value = some v)
    (h : resolve c t owner r = .ok (.value w)) :
    w = .ofNat 64 Arm.Machine.tlsBias + addend + .ofNat 64 v := by
  rcases resolve_pending hr h with ⟨hexternal, -⟩ | ⟨w', hw', hvalue, -⟩
  · rw [hinternal] at hexternal
    cases hexternal
  · cases hw'
    cases hbase : (t.get owner).value with
    | none =>
      simp only [valueOf, hbase] at hvalue
      cases hvalue
    | some base =>
      obtain ⟨-, -, htls⟩ := valueOf_eq c r addend (siteOf t owner r .tls target) hbase hv
      exact (Except.ok.inj (htls.symm.trans hvalue)).symm

end Resolve

namespace Link

open Elf Image Layout Resolve SymbolTable

variable {o : Options} {objects : List Object} {u t : SymbolTable} {placed : Placed} {uuid : Bytes}
  {image : Array UInt8}

theorem LaidOut.alignment_loadHeaders (h : LaidOut o u t placed) (hmode : o.isExternal = false)
    (huuid : uuid.length = 16) (himage : Link.image o placed uuid = .ok image) :
    Image.loadHeaders image ≠ [] ∧
      ∀ header ∈ Image.loadHeaders image, header.alignment = Alignment.page.value := by
  obtain ⟨t₀, fills, hc⟩ := compute_ok h.sentinels h.computed
  have hloads := hc.arranged.segments
  rw [h.loadHeaders hmode huuid himage]
  refine ⟨fun hnil => ?_, fun header hheader => ?_⟩
  · rw [map_eq_nil_iff.mp hnil] at hloads
    cases hloads
  · obtain ⟨e, he, rfl⟩ := mem_map.mp hheader
    have hsegment : e.segment ∈ Segment.loads := hloads ▸ mem_map_of_mem he
    have hpages : ∀ segment ∈ Segment.loads,
        segment.alignment.value % 256 ^ 4 = Alignment.page.value := by
      decide
    exact hpages _ hsegment

/-- A bias that all mapped segments allow is a multiple of a page. -/
theorem LaidOut.bias_iff (h : LaidOut o u t placed) (hmode : o.isExternal = false)
    (huuid : uuid.length = 16) (himage : Link.image o placed uuid = .ok image) (bias : Nat) :
    (∀ header ∈ Image.loadHeaders image, header.alignment ∣ bias) ↔
      Alignment.page.value ∣ bias := by
  obtain ⟨hne, hpages⟩ := h.alignment_loadHeaders hmode huuid himage
  constructor
  · intro hbias
    obtain ⟨header, hheader⟩ := exists_mem_of_ne_nil _ hne
    rw [← hpages header hheader]
    exact hbias header hheader
  · intro hbias header hheader
    rw [hpages header hheader]
    exact hbias

/-- The offset from the thread pointer is aligned like the one that counts from the bias. -/
theorem dvd_tls_iff {a : Alignment} (ha : a.value ≤ Alignment.largest.value) (v : Nat) :
    a.value ∣ (BitVec.ofNat 64 Arm.Machine.tlsBias + 0 + BitVec.ofNat 64 v).toNat ↔
      a.value ∣ v + Arm.Machine.tlsBias := by
  have hspace : a.value ∣ addressSpace :=
    Nat.dvd_trans (Alignment.value_dvd_value_iff.mpr ha) (by decide)
  have htoNat : (BitVec.ofNat 64 Arm.Machine.tlsBias + 0 + BitVec.ofNat 64 v).toNat =
      (v + Arm.Machine.tlsBias) % addressSpace := by
    simp only [BitVec.toNat_add, BitVec.toNat_ofNat, Nat.mod_add_mod, Nat.add_mod_mod]
    rw [Nat.add_comm]
    rfl
  rw [htoNat]
  exact Nat.dvd_mod_iff hspace

/-- **Alignments at run time.** Layout gives each symbol of a section an address that is a multiple
of the alignment that it asks for. When a loader moves the file by a bias that all mapped segments
allow, an address that was a multiple of the alignment stays one if and only if the file is not
moved at all or the alignment is at most a page. The offset of a thread-local symbol from the thread
pointer is a multiple if and only if the alignment is at most the distance of thread-local data from
there. -/
theorem loaded_aligned_iff (hmode : o.isExternal = false)
    (hprepare : prepare o objects = .ok placed) (huuid : uuid.length = 16)
    (himage : Link.image o placed uuid = .ok image) {raw : Nat} {a : Alignment}
    (haccepted : Alignment.ofNat? raw = .ok a) {id : SymbolId}
    (ha : (placed.table.get id).alignment = some a) :
    (id ∈ placed.layout.symbols → ∃ v, (placed.table.get id).value = some v ∧ raw ∣ v) ∧
    ∀ v, (placed.table.get id).value = some v →
      ((∀ bias, (∀ header ∈ loadHeaders image, header.alignment ∣ bias) →
          (o.isRelocatable = false → bias = 0) → raw ∣ v + bias) ↔
        raw ∣ v ∧ (o.isRelocatable = true → raw ≤ 4096)) ∧
      ∀ c owner r w, c.external = false → r.outcome = .pending .tls (some id) 0 →
        resolve c placed.table owner r = .ok (.value w) →
          (raw ∣ w.toNat ↔ raw ∣ v + 8) ∧ (raw ∣ v → (raw ∣ w.toNat ↔ raw ≤ 8)) := by
  obtain ⟨u, t, hlaid⟩ := laidOut_of_prepare hprepare
  obtain ⟨t₀, fills, hc⟩ := compute_ok hlaid.sentinels hlaid.computed
  obtain ⟨rfl, hlargest⟩ := Alignment.value_of_ofNat? haccepted
  have hkept : ((placed.table.get id).alignment, (placed.table.get id).value) =
      ((t.get id).alignment, (t.get id).value) :=
    (hlaid.keeps.map fun s => (s.alignment, s.value)).2 id
  obtain ⟨halignment, hvalue⟩ := Prod.mk.inj hkept
  refine ⟨fun hid => ?_, fun v hv => ⟨?_, ?_⟩⟩
  · rw [hvalue]
    exact hc.dvd_value hid (halignment ▸ ha)
  · simp only [hlaid.bias_iff hmode huuid himage]
    cases hmoves : o.isRelocatable with
    | false =>
      refine ⟨fun h => ⟨h 0 (Nat.dvd_zero _) fun _ => rfl, fun hmoves => ?_⟩, ?_⟩
      · cases hmoves
      · rintro ⟨hdvd, -⟩ bias - hbias
        rw [hbias rfl]
        exact hdvd
    | true =>
      have hmultiples := Alignment.dvd_add_multiples_iff (a := a) (b := .page) (v := v)
      constructor
      · intro h
        obtain ⟨hdvd, hle⟩ := hmultiples.mp fun bias hbias =>
          h bias hbias fun hmoves => by cases hmoves
        exact ⟨hdvd, fun _ => hle⟩
      · rintro ⟨hdvd, hle⟩ bias hbias -
        exact hmultiples.mpr ⟨hdvd, hle rfl⟩ bias hbias
  · intro c owner r w hinternal hr hresolve
    obtain rfl := value_of_resolve_tls hinternal hr hv hresolve
    have hoffset := dvd_tls_iff hlargest v
    refine ⟨hoffset, fun hdvd => hoffset.trans ?_⟩
    rw [Nat.dvd_add_right hdvd]
    exact Alignment.value_dvd_value_iff (b := ⟨3⟩)

/-- Options of a program that is loaded anywhere. -/
def movedOptions : Options where
  outputKind := .relocatable
  stripAll := true
  entry := .symbol "main"

/-- Data of each thread that start as zeros. -/
def threadData (name : String) (size : Nat) (alignment : Option Alignment) : ObjectSymbol where
  name := name
  kind := .tlsBss
  size := size
  alignment := alignment

/-- A program with a table and a thread-local counter that ask for alignments. -/
def alignedFile (table counter : Alignment) : Object where
  path := "a.toml"
  symbols :=
    [programCode (Bytes.zeros 8)
      [.pending 0 4 .pcRelative (some "table") 0, .pending 4 4 .tls (some "counter") 0],
     { name := "table", kind := .noPtrData, size := 4, data := [1, 2, 3, 4]
       alignment := some table },
     threadData "counter" 16 (some counter)]
  imports := []

/-- The offset of the counter from the thread pointer, as `main` has it. -/
def counterOffset : Relocation SymbolId := .pending 4 4 .tls (some 21) 0

/-- A page and eight bytes are the strictest alignments that hold. -/
theorem loaded_aligned_iff_sample : movedOptions.isExternal = false ∧ (Bytes.zeros 16).length = 16 ∧
    Alignment.ofNat? 4096 = .ok ⟨12⟩ ∧ Alignment.ofNat? 8 = .ok ⟨3⟩ ∧
    ∃ placed image, prepare movedOptions [alignedFile ⟨12⟩ ⟨3⟩] = .ok placed ∧
      Link.image movedOptions placed (Bytes.zeros 16) = .ok image ∧
      (placed.table.get 20).alignment = some ⟨12⟩ ∧ (placed.table.get 21).alignment = some ⟨3⟩ ∧
      (∀ bias, (∀ header ∈ loadHeaders image, header.alignment ∣ bias) → 4096 ∣ 12288 + bias) ∧
      resolve ⟨placed.layout, false, none⟩ placed.table 19 counterOffset = .ok (.value 8) ∧
      8 ∣ (8 : Word64).toNat := by
  obtain ⟨placed, hprepare, hplan, htable, haddress, hcounter, hoffset, hresolve⟩ :
      ∃ placed, prepare movedOptions [alignedFile ⟨12⟩ ⟨3⟩] = .ok placed ∧
        (∃ plan, Image.plan placed.table placed.layout movedOptions placed.relocations =
          .ok plan) ∧
        (placed.table.get 20).alignment = some ⟨12⟩ ∧ (placed.table.get 20).value = some 12288 ∧
        (placed.table.get 21).alignment = some ⟨3⟩ ∧ (placed.table.get 21).value = some 0 ∧
        resolve ⟨placed.layout, false, none⟩ placed.table 19 counterOffset = .ok (.value 8) := by
    decide +kernel
  have huuid := Bytes.length_zeros 16
  obtain ⟨image, himage⟩ := exists_image hprepare hplan
  have hpage : Alignment.ofNat? 4096 = .ok ⟨12⟩ := by decide +kernel
  have height : Alignment.ofNat? 8 = .ok ⟨3⟩ := by decide +kernel
  obtain ⟨-, hmoved⟩ := loaded_aligned_iff rfl hprepare huuid himage hpage htable
  obtain ⟨-, hthread⟩ := loaded_aligned_iff rfl hprepare huuid himage height hcounter
  refine ⟨rfl, huuid, hpage, height, placed, image, hprepare, himage, htable, hcounter, ?_,
    hresolve, ?_⟩
  · intro bias hbias
    refine (hmoved _ haddress).1.mpr ⟨by decide, fun _ => Nat.le_refl _⟩ bias hbias fun hmoves => ?_
    cases hmoves
  · have hdvd := ((hthread _ hoffset).2 _ 19 counterOffset 8 rfl rfl hresolve).2 (by decide)
    exact hdvd.mpr (Nat.le_refl _)

/-- **Lost alignments.** A table that asks for two pages is not aligned when the file is loaded one
page away from where it was laid out, and a counter that asks for 16 bytes is 8 bytes away from the
thread pointer. -/
theorem alignment_lost : Alignment.ofNat? 8192 = .ok ⟨13⟩ ∧ Alignment.ofNat? 16 = .ok ⟨4⟩ ∧
    ∃ placed image, prepare movedOptions [alignedFile ⟨13⟩ ⟨4⟩] = .ok placed ∧
      Link.image movedOptions placed (Bytes.zeros 16) = .ok image ∧
      ((placed.table.get 20).alignment, (placed.table.get 20).value) = (some ⟨13⟩, some 16384) ∧
      (∀ header ∈ loadHeaders image, header.alignment ∣ 4096) ∧ ¬ 8192 ∣ 16384 + 4096 ∧
      (placed.table.get 21).alignment = some ⟨4⟩ ∧
      resolve ⟨placed.layout, false, none⟩ placed.table 19 counterOffset = .ok (.value 8) ∧
      ¬ 16 ∣ (8 : Word64).toNat := by
  obtain ⟨placed, hprepare, hplan, htable, hcounter, hresolve⟩ :
      ∃ placed, prepare movedOptions [alignedFile ⟨13⟩ ⟨4⟩] = .ok placed ∧
        (∃ plan, Image.plan placed.table placed.layout movedOptions placed.relocations =
          .ok plan) ∧
        ((placed.table.get 20).alignment, (placed.table.get 20).value) = (some ⟨13⟩, some 16384) ∧
        (placed.table.get 21).alignment = some ⟨4⟩ ∧
        resolve ⟨placed.layout, false, none⟩ placed.table 19 counterOffset = .ok (.value 8) := by
    decide +kernel
  obtain ⟨image, himage⟩ := exists_image hprepare hplan
  obtain ⟨u, t, hlaid⟩ := laidOut_of_prepare hprepare
  refine ⟨by decide +kernel, by decide +kernel, placed, image, hprepare, himage, htable, ?_,
    by decide, hcounter, hresolve, by decide⟩
  exact (hlaid.bias_iff rfl (Bytes.length_zeros 16) himage 4096).mpr (Nat.dvd_refl _)

end Link

end ArmLink
