import ArmLink.Proofs.Dynamic.Relative
import ArmLink.Proofs.Image.Symbols
import ArmLink.Proofs.Link.Prepare
import ArmLink.Proofs.Resolve.HostLink
import ArmLink.Proofs.Resolve.Values

/-!
# Adjusting a loaded output

An output that may be loaded anywhere is laid out for one address. When a loader puts it elsewhere,
it adds the distance to each word that an entry for such words tells. The addresses of those words
are relocations of the table of the entries, and are known only after layout.
-/

namespace ArmLink

open List

variable {s : Symbol} {done : List (Relocation SymbolId × Settlement)} {n offset start : Nat}
  {addresses : List Word} {l : Layout} {xs : List (SymbolId × Relocation SymbolId)}
  {r : Relocation SymbolId} {name : String}

/-! ## Memory -/

/-- The bytes at all 32-bit addresses. -/
abbrev AddressSpace := Word → UInt8

namespace AddressSpace

variable {m : AddressSpace} {a b : Word}

def word (m : AddressSpace) (a : Word) : Word :=
  .ofNat 32 (Bytes.toNat ((range 4).map fun i => m (a + .ofNat 32 i)))

/-- Memory with a word written at an address. -/
def setWord (m : AddressSpace) (a w : Word) : AddressSpace := fun b =>
  if (b - a).toNat < 4 then (Bytes.ofWord w).getD (b - a).toNat 0 else m b

/-- Memory with the bias added to the word at an address. -/
def adjust (bias : Word) (m : AddressSpace) (a : Word) : AddressSpace :=
  m.setWord a (m.word a + bias)

/-- Memory with the bias added to the words at these addresses, one after the other. -/
def relocate (m : AddressSpace) (bias : Word) (addresses : List Word) : AddressSpace :=
  addresses.foldl (adjust bias) m

/-- The words at two addresses have no byte in common. -/
def Apart (a b : Word) : Prop := 4 ≤ (b - a).toNat ∧ 4 ≤ (a - b).toNat

instance (a b : Word) : Decidable (Apart a b) := inferInstanceAs (Decidable (_ ∧ _))

theorem apart_of_le {k : Nat} (hn : n + 4 ≤ 2 ^ 32) (hk : k + 4 ≤ 2 ^ 32)
    (h : n + 4 ≤ k ∨ k + 4 ≤ n) : Apart (.ofNat 32 n) (.ofNat 32 k) := by
  simp only [Apart, BitVec.toNat_sub, BitVec.toNat_ofNat]
  omega

theorem word_setWord_self {a w : Word} : (m.setWord a w).word a = w := by
  have hbytes : ((range 4).map fun i => m.setWord a w (a + .ofNat 32 i)) = Bytes.ofWord w := by
    refine ext_getElem (by simp) fun i hi hi' => ?_
    have hi : i < 4 := by simpa using hi
    have hself : (a + BitVec.ofNat 32 i - a).toNat = i := by
      rw [BitVec.add_comm, BitVec.add_sub_cancel, BitVec.toNat_ofNat]
      omega
    simp only [getElem_map, getElem_range, setWord, hself, if_pos hi]
    rw [getD_eq_getElem?_getD, getElem?_eq_getElem hi', Option.getD_some]
  rw [word, hbytes, Bytes.ofWord, Bytes.toNat_ofNat]
  apply BitVec.eq_of_toNat_eq
  rw [BitVec.toNat_ofNat]
  omega

theorem word_setWord_of_apart (h : Apart a b) (w : Word) : (m.setWord a w).word b = m.word b := by
  have hbytes : ∀ i ∈ range 4, m.setWord a w (b + .ofNat 32 i) = m (b + .ofNat 32 i) := by
    intro i hi
    have hi : i < 4 := mem_range.mp hi
    refine if_neg ?_
    simp only [Apart, BitVec.toNat_sub, BitVec.toNat_add, BitVec.toNat_ofNat] at h ⊢
    omega
  rw [word, word, map_congr_left hbytes]

theorem word_relocate_of_apart (h : ∀ b ∈ addresses, Apart b a) (m : AddressSpace) (bias : Word) :
    (m.relocate bias addresses).word a = m.word a := by
  induction addresses generalizing m with
  | nil => rfl
  | cons b addresses ih =>
    obtain ⟨hb, h⟩ := forall_mem_cons.mp h
    exact (ih h (adjust bias m b)).trans (word_setWord_of_apart hb _)

theorem word_relocate (h : addresses.Pairwise Apart) (ha : a ∈ addresses) (m : AddressSpace)
    (bias : Word) : (m.relocate bias addresses).word a = m.word a + bias := by
  induction addresses generalizing m with
  | nil => cases ha
  | cons b addresses ih =>
    obtain ⟨hb, h⟩ := pairwise_cons.mp h
    show ((adjust bias m b).relocate bias addresses).word a = m.word a + bias
    rcases mem_cons.mp ha with rfl | ha
    · rw [word_relocate_of_apart fun c hc => (hb c hc).symm]
      exact word_setWord_self ..
    · rw [ih h ha (adjust bias m b), adjust, word_setWord_of_apart (hb a ha)]

end AddressSpace

/-! ## Relocations that hold an address -/

namespace Resolve

variable {c : Context} {t : SymbolTable} {owner target : SymbolId} {addend : Word64}

theorem Applied.word {before after : List (Relocation SymbolId)} (h : Applied c t owner s done)
    (hexternal : c.external = false) (hsplit : (t.get owner).relocations = before ++ r :: after)
    (hr : r.outcome = .pending .absolute (some target) addend) (hsize : r.size = 4) :
    ∃ address, (t.get target).value = some address ∧
      ((∀ r' ∈ after, ¬ Overlap r r') → s.data.wordAt? r.offset =
        some (BitVec.ofNat 32 address + addend.setWidth 32 : Word).toNat) := by
  obtain ⟨x, hsettle, -, -, hslice⟩ := h.site hsplit
  obtain ⟨address, haddress, hvalue⟩ := value_of_settle hexternal hr hsettle
  refine ⟨address, haddress, fun hafter => ?_⟩
  rw [Bytes.wordAt?, ← hsize, hslice hafter, Option.map_some, Bytes.toNat_ofNat, hsize, hvalue,
    ← narrow_ofNat, ← narrow_add, BitVec.toNat_setWidth]
  rfl

theorem slice?_patched_of_apart {slice : Bytes} (h : s.data.slice? offset n = some slice)
    (hapart : ∀ x ∈ done, x.1.stop ≤ offset ∨ offset + n ≤ x.1.offset) :
    (patched s done).data.slice? offset n = some slice := by
  refine foldl_induction (P := fun data : Bytes => data.slice? offset n = some slice) h
    fun data x hx hdata => Bytes.slice?_patch_of_apart hdata fun i hle hlt hmem => ?_
  rw [Bytes.length_ofNat] at hmem
  rcases hapart x hx with hstop | hstart
  · rw [Relocation.stop] at hstop
    omega
  · omega

theorem length_patched (h : ∀ x ∈ done, x.1.stop ≤ s.data.length) :
    (patched s done).data.length = s.data.length := by
  refine foldl_induction (P := fun data : Bytes => data.length = s.data.length) rfl
    fun data x hx hdata => ?_
  rw [Bytes.length_patch, Bytes.length_ofNat, hdata]
  exact Nat.max_eq_left (h x hx)

end Resolve

namespace DynamicTables

open SymbolTable Layout Resolve

variable {d d' : DynamicTables} {t t' t₁ t₂ : SymbolTable} {c : Context} {id : SymbolId}
  {x y : SymbolId × Relocation SymbolId}

/-! ## Completing the tables -/

theorem get_addName (hid : id ≠ d.dynStr) : (d.addName t name).2.2.get id = t.get id := by
  simp only [addName]
  split
  · rfl
  · exact get_modify_ne hid

theorem relocations_addName (d : DynamicTables) (t : SymbolTable) (name : String) :
    Keeps Symbol.relocations t (d.addName t name).2.2 := by
  simp only [addName]
  split
  · exact .refl t
  · exact .modify rfl

theorem dynamic_addName : (d.addName t name).2.1.dynamic = d.dynamic := by
  simp only [addName]
  split <;> rfl

/-- Completing the tables leaves all but three of them alone. -/
theorem get_finish (runPath : Option String) (hid : id ∉ [d.hash, d.dynStr, d.dynamic]) :
    (d.finish t runPath).2.get id = t.get id := by
  simp only [mem_cons, not_mem_nil, or_false, not_or] at hid
  obtain ⟨hhash, hdynStr, hdynamic⟩ := hid
  have hwrite : (d.writeHash t).get id = t.get id := get_modify_ne hhash
  cases runPath with
  | none => exact (get_modify_ne hdynamic).trans hwrite
  | some path =>
    have hne : id ≠ (d.addName (d.writeHash t) path).2.1.dynamic := by rwa [dynamic_addName]
    exact (get_modify_ne hne).trans ((get_addName hdynStr).trans hwrite)

/-- Completing the tables adds relocations to the dynamic section only. -/
theorem relocations_finish (runPath : Option String) (hid : id ≠ d.dynamic) :
    ((d.finish t runPath).2.get id).relocations = (t.get id).relocations := by
  have hwrite : Keeps Symbol.relocations t (d.writeHash t) := .modify rfl
  cases runPath with
  | none => exact (congrArg _ (get_modify_ne hid)).trans (hwrite.2 id)
  | some path =>
    have hname := hwrite.trans (relocations_addName d (d.writeHash t) path)
    have hne : id ≠ (d.addName (d.writeHash t) path).2.1.dynamic := by rwa [dynamic_addName]
    exact (congrArg _ (get_modify_ne hne)).trans (hname.2 id)

/-! ## Layout -/

/-- The symbols of `t`, with entries for the words that hold an address, after they got their
addresses in `t₁`, and after relocations were applied in `t₂`. -/
structure Laid (d : DynamicTables) (t : SymbolTable) (c : Context) (t₁ t₂ : SymbolTable) :
    Prop where
  external : c.external = false
  kept : Keeps bare t₁ t₂
  site : ∀ id, (t.get id).reachable = true → (t.get id).kind.isPlaced = true →
    isSite (t₁.get id) = true
  applied : ∀ id, isSite (t₁.get id) = true → ∃ done, Applied c t₁ id (t₂.get id) done
  relocations : ∀ id, id ∉ [d.rel, d.dynamic] →
    (t₁.get id).relocations = (t.get id).relocations
  rel : (t₁.get d.rel).data = (withEntries (t.get d.rel) (movingWords d t)).data ∧
    (t₁.get d.rel).relocations = (withEntries (t.get d.rel) (movingWords d t)).relocations
  /-- symbols with relocations that lie within no other are packed within 32-bit addresses -/
  packed : ∃ (lo : Nat) (symbols : List SymbolId), Span.Packed lo (2 ^ 32) (symbols.map t₁.span) ∧
    ∀ id, (t.get id).reachable = true → (t.get id).kind.isPlaced = true →
      (t.get id).outer = none → (t₁.get id).relocations ≠ [] → id ∈ symbols

/-- The sentinels are there, and what the linker defines has no place before layout: no input may
define it. -/
structure Unplaced (t : SymbolTable) : Prop where
  sentinels : t.HasSentinels
  special : ∀ id, (t.get id).special = true → (t.get id).kind.isPlaced = false

theorem Unplaced.not_special (h : Unplaced t) (hplaced : (t.get id).kind.isPlaced = true) :
    (t.get id).special = false := by
  refine Bool.eq_false_iff.mpr fun hspecial => ?_
  rw [h.special id hspecial] at hplaced
  cases hplaced

/-- The words that hold an address are not in the tables that are completed. -/
theorem not_mem_of_moves (h : Moves d t x) : x.1 ∉ [d.rel, d.dynamic] := by
  have howner := h.owner
  simp only [mem_cons, not_mem_nil, or_false, not_or] at howner ⊢
  exact ⟨howner.2.1, howner.2.2.2.2⟩

/-- A symbol with relocations that lies within no other is in a section that is mapped. -/
theorem mem_loaded_symbols {t₀ : SymbolTable} {fills : List Fill} (hc : Computed t l t₁ t₀ fills)
    (hcandidate : isCandidate (t.get id) = true) (hplaced : (t₁.get id).kind.isPlaced = true)
    (hrelocations : (t₁.get id).relocations ≠ []) : id ∈ l.loaded.flatMap (·.symbols) := by
  obtain ⟨s, hs, hid⟩ := mem_flatMap.mp (hc.mem_symbols.mpr ⟨hcandidate, hplaced⟩)
  have htype : s.type ≠ Elf.SectionType.noBits :=
    fun htype => hrelocations (hc.no_contents hs htype hid).2
  exact mem_flatMap.mpr ⟨s, hc.mem_loaded hs htype, hid⟩

theorem finish_spec (runPath : Option String) (h : Reached d t)
    (hadd : d.addRelative t = (d', t')) : Keeps shell t (d'.finish t' runPath).2 ∧
      (∀ id, id ∉ [d.rel, d.dynamic] →
        ((d'.finish t' runPath).2.get id).relocations = (t.get id).relocations) ∧
      (d'.finish t' runPath).2.get d.rel = withEntries (t.get d.rel) (movingWords d t) := by
  obtain ⟨hall, hshell, hother, hrel⟩ := addRelative_spec h hadd
  obtain ⟨hnodup, -⟩ := h.tables
  simp only [all, cons.injEq] at hall
  obtain ⟨-, hdynStr, -, -, hhash, -, -, -, hdynamic, -⟩ := hall
  refine ⟨hshell.trans (grows_finish d' t' runPath).shell, fun id hid => ?_, ?_⟩
  · simp only [mem_cons, not_mem_nil, or_false, not_or] at hid
    rw [relocations_finish runPath (hdynamic ▸ hid.2), hother id hid.1]
  · rw [get_finish runPath, hrel]
    rw [hdynStr, hhash, hdynamic]
    exact not_mem_of_all hnodup 2 rfl (by simp [all])

theorem laid_of_apply {runPath : Option String} {relocatable : Bool} {first : Nat}
    {hosts : List HostRelocation} (h : Reached d t) (hs : Unplaced t)
    (hadd : d.addRelative t = (d', t'))
    (hcompute : compute (d'.finish t' runPath).2 relocatable first = .ok (l, t₁))
    (happly : apply t₁ l false = .ok (t₂, hosts)) : Laid d t ⟨l, false, gotAddress t₁⟩ t₁ t₂ := by
  obtain ⟨hshell, hrelocations, hrel⟩ := finish_spec runPath h hadd
  generalize (d'.finish t' runPath).2 = u at hshell hrelocations hrel hcompute
  have hsentinels : u.HasSentinels :=
    hs.sentinels.reads hshell fun _ => rfl
  obtain ⟨t₀, fills, hc⟩ := compute_ok hsentinels hcompute
  obtain ⟨hbare, happlied⟩ := apply_ok happly
  have hsite (id : SymbolId) (hreach : (t.get id).reachable = true)
      (hplaced : (t.get id).kind.isPlaced = true) : isSite (t₁.get id) = true := by
    refine Link.isSite_of_computed hc ?_ ?_
    · exact ((hshell.map Symbol.special).2 id).trans (hs.not_special hplaced)
    · exact ((hshell.map isSite).2 id).trans (Bool.and_eq_true_iff.mpr ⟨hreach, hplaced⟩)
  have hlaid := (hc.keeps.read Symbol.relocations fun _ => rfl).2
  have hdata := (hc.keeps.read Symbol.data fun _ => rfl).2 d.rel
  refine ⟨rfl, hbare, hsite, fun id hid => ?_, fun id hid => ?_, ⟨?_, ?_⟩,
    l.textStart - headerSpace, _, hc.packed_loads (.refl _), ?_⟩
  · obtain ⟨done, hdone, -⟩ := (happlied id).site hid
    exact ⟨done, hdone⟩
  · rw [hlaid, hrelocations id hid]
  · rw [hdata, hrel]
  · rw [hlaid, hrel]
  · intro id hreach hplaced houter hne
    refine mem_loaded_symbols hc ?_ (Bool.and_eq_true_iff.mp (hsite id hreach hplaced)).2 hne
    have hcandidate : isCandidate (t.get id) = true := by
      simp [isCandidate, hreach, hs.not_special hplaced, houter]
    exact ((hshell.map isCandidate).2 id).trans hcandidate

/-! ## What the entries tell -/

variable (t x)

/-- The address of a word once its owner has one. -/
def siteAddress : Word :=
  .ofNat 32 ((t.get x.1).value.getD 0 + x.2.offset)

/-- An entry as the loader reads it. -/
structure LoaderEntry where
  place : Word
  symbol : Nat
  type : Nat
  deriving DecidableEq, Repr

def entriesAt? (data : Bytes) : (offset count : Nat) → Option (List LoaderEntry)
  | _, 0 => some []
  | offset, count + 1 => do
    let place ← data.wordAt? offset
    let info ← data.wordAt? (offset + 4)
    let rest ← entriesAt? data (offset + 8) count
    return ⟨.ofNat 32 place, info / 256, info % 256⟩ :: rest

/-- The entry by which the loader adjusts a word. -/
def adjustment : LoaderEntry :=
  ⟨siteAddress t x, 0, Elf.RelocationType.relative⟩

variable {t x}

theorem entriesAt?_eq_some {data : Bytes} (h : ∀ before x after, xs = before ++ x :: after →
      data.wordAt? (offset + 8 * before.length) = some (siteAddress t x).toNat ∧
      data.wordAt? (offset + 8 * before.length + 4) = some Elf.RelocationType.relative) :
    entriesAt? data offset xs.length = some (xs.map (adjustment t)) := by
  induction xs generalizing offset with
  | nil => rfl
  | cons x xs ih =>
    obtain ⟨hplace, hinfo⟩ := h [] x xs rfl
    have hrest : entriesAt? data (offset + 8) xs.length = some (xs.map (adjustment t)) := by
      refine ih fun before y after hxs => ?_
      have hnext : offset + 8 + 8 * before.length = offset + 8 * (before.length + 1) := by omega
      rw [hnext]
      exact h (x :: before) y after (congrArg _ hxs)
    simp only [length_nil, Nat.mul_zero, Nat.add_zero] at hplace hinfo
    simp only [length_cons, entriesAt?, hplace, hinfo, hrest, Option.bind_eq_bind,
      Option.bind_some, Option.pure_def, BitVec.ofNat_toNat, BitVec.setWidth_eq]
    rfl

theorem relativePatches_append {ys : List (SymbolId × Relocation SymbolId)} :
    relativePatches start (xs ++ ys) =
      relativePatches start xs ++ relativePatches (start + 8 * xs.length) ys := by
  have hnext (k : Nat) : start + 8 * (k + xs.length) = start + 8 * xs.length + 8 * k := by omega
  simp only [relativePatches, mapIdx_append, hnext]

/-- An entry is patched in its first half. -/
theorem place_of_mem_relativePatches (hr : r ∈ relativePatches start xs) :
    ∃ k < xs.length, r.offset = start + 8 * k ∧ r.stop = start + 8 * k + 4 := by
  obtain ⟨k, hk, rfl⟩ := mem_mapIdx.mp hr
  exact ⟨k, hk, rfl, rfl⟩

theorem length_flatMap_relativeBytes :
    (xs.flatMap fun _ => relativeBytes).length = 8 * xs.length := by
  induction xs with
  | nil => rfl
  | cons x xs ih =>
    rw [flatMap_cons, length_append, ih, length_cons]
    show 8 + 8 * xs.length = _
    omega

namespace Laid

variable (h : Laid d t c t₁ t₂)
include h

theorem value_eq (id : SymbolId) : (t₂.get id).value = (t₁.get id).value :=
  (h.kept.map Symbol.value).2 id

theorem applied_rel (hreached : Reached d t) : ∃ done, Applied c t₁ d.rel (t₂.get d.rel) done := by
  have hready := hreached.ready d.rel (by simp [all])
  simp only [isReady, Bool.and_eq_true] at hready
  exact h.applied d.rel (h.site d.rel hready.1.1 hready.1.2)

/-- The relocations of the table are in what was there, or in the first halves of the entries. -/
theorem stop_le_or (hreached : Reached d t) (hr : r ∈ (t₁.get d.rel).relocations) :
    r.stop ≤ (t.get d.rel).data.length ∨ ∃ k < (movingWords d t).length,
      r.offset = (t.get d.rel).data.length + 8 * k ∧
        r.stop = (t.get d.rel).data.length + 8 * k + 4 := by
  rw [h.rel.2] at hr
  rcases mem_append.mp hr with hr | hr
  · exact .inl (hreached.isBounded_rel.2 r hr)
  · exact .inr (place_of_mem_relativePatches hr)

theorem length_rel (hreached : Reached d t) : (t₂.get d.rel).data.length =
      (t.get d.rel).data.length + 8 * (movingWords d t).length := by
  have hlength : (t₁.get d.rel).data.length =
      (t.get d.rel).data.length + 8 * (movingWords d t).length := by
    rw [h.rel.1, withEntries, length_append, length_flatMap_relativeBytes]
  obtain ⟨done, hdone⟩ := h.applied_rel hreached
  rw [hdone.symbol, length_patched, hlength]
  intro x hx
  have hmem : x.1 ∈ (t₁.get d.rel).relocations := hdone.relocations ▸ mem_map_of_mem hx
  rcases h.stop_le_or hreached hmem with hle | ⟨k, hk, -, hstop⟩ <;> omega

/-- **Entry.** An entry tells the address of its word, and what is to be done. -/
theorem entry {before after : List (SymbolId × Relocation SymbolId)} (hreached : Reached d t)
    (hsplit : movingWords d t = before ++ x :: after) :
    (∃ address, (t₂.get x.1).value = some address) ∧
      (t₂.get d.rel).data.wordAt? ((t.get d.rel).data.length + 8 * before.length) =
        some (siteAddress t₂ x).toNat ∧
      (t₂.get d.rel).data.wordAt? ((t.get d.rel).data.length + 8 * before.length + 4) =
        some Elf.RelocationType.relative := by
  obtain ⟨done, hdone⟩ := h.applied_rel hreached
  rw [← and_assoc]
  constructor
  · have hpatches : (t₁.get d.rel).relocations =
        ((t.get d.rel).relocations ++ relativePatches (t.get d.rel).data.length before) ++
          .pending ((t.get d.rel).data.length + 8 * before.length) 4 .absolute (some x.1)
            (.ofNat 64 x.2.offset) ::
          relativePatches ((t.get d.rel).data.length + 8 * before.length + 8) after := by
      rw [h.rel.2, withEntries, hsplit, relativePatches_append, relativePatches_cons,
        append_assoc]
    obtain ⟨address, haddress, hword⟩ := hdone.word h.external hpatches rfl rfl
    refine ⟨⟨address, (h.value_eq x.1).trans haddress⟩, (hword fun r hr hoverlap => ?_).trans ?_⟩
    · -- the entries after it start where it ends
      obtain ⟨k, -, hoffset, -⟩ := place_of_mem_relativePatches hr
      simp only [Overlap, Relocation.stop, Relocation.pending, hoffset] at hoverlap
      omega
    · rw [siteAddress, h.value_eq, haddress, narrow_ofNat, ← BitVec.ofNat_add]
      rfl
  · let front := (t.get d.rel).data ++ (before.flatMap fun _ => relativeBytes) ++ Bytes.ofWord 0
    let info : Word := Elf.RelocationType.info 0 (.ofNat 32 Elf.RelocationType.relative)
    have hfront : front.length = (t.get d.rel).data.length + 8 * before.length + 4 := by
      simp only [front, length_append, length_flatMap_relativeBytes]
      rfl
    have hdata : (t₁.get d.rel).data =
        front ++ (Bytes.ofWord info ++ after.flatMap fun _ => relativeBytes) := by
      rw [h.rel.1, withEntries, hsplit]
      simp only [flatMap_append, flatMap_cons, relativeBytes, front, info,
        append_assoc]
    have hslice := Bytes.slice?_append_self front (Bytes.ofWord info)
      (after.flatMap fun _ => relativeBytes)
    rw [← hdata, hfront] at hslice
    rw [hdone.symbol]
    refine Bytes.wordAt?_eq_some (w := info) (slice?_patched_of_apart hslice fun y hy => ?_)
    -- the first halves of entries lie apart from the second halves
    have hmem : y.1 ∈ (t₁.get d.rel).relocations := hdone.relocations ▸ mem_map_of_mem hy
    rcases h.stop_le_or hreached hmem with hle | ⟨k, hk, hoffset, hstop⟩
    · omega
    · omega

/-! ## The words -/

theorem applied_of_mem (hx : x ∈ movingWords d t) : ∃ done, Applied c t₁ x.1 (t₂.get x.1) done ∧
    (t₁.get x.1).relocations = (t.get x.1).relocations := by
  obtain ⟨-, hmoves⟩ := mem_movingWords.mp hx
  obtain ⟨done, hdone⟩ := h.applied x.1 (h.site x.1 hmoves.reachable hmoves.placed)
  exact ⟨done, hdone, h.relocations x.1 (not_mem_of_moves hmoves)⟩

/-- **Word.** A word that holds an address holds the one of its target with the addend. -/
theorem word {target : SymbolId} {addend : Word64} (hx : x ∈ movingWords d t)
    (hr : x.2.outcome = .pending .absolute (some target) addend) :
    ∃ address, (t₂.get target).value = some address ∧
      ((t.get x.1).relocations.Pairwise (fun r r' => ¬ Overlap r r') →
        (t₂.get x.1).data.wordAt? x.2.offset =
          some (BitVec.ofNat 32 address + addend.setWidth 32 : Word).toNat) := by
  obtain ⟨hmem, hmoves⟩ := mem_movingWords.mp hx
  obtain ⟨done, hdone, hrelocations⟩ := h.applied_of_mem hx
  obtain ⟨before, after, hsplit⟩ := append_of_mem hmem
  obtain ⟨address, haddress, hword⟩ :=
    hdone.word h.external (hrelocations.trans hsplit) hr hmoves.size
  refine ⟨address, (h.value_eq target).trans haddress, fun hpairwise => hword ?_⟩
  rw [hsplit] at hpairwise
  exact (pairwise_cons.mp (pairwise_append.mp hpairwise).2.1).1

theorem stop_le_span (hx : x ∈ movingWords d t) :
    (t₁.get x.1).value.getD 0 + x.2.offset + 4 ≤ (t₁.span x.1).stop := by
  obtain ⟨hmem, hmoves⟩ := mem_movingWords.mp hx
  obtain ⟨done, hdone, hrelocations⟩ := h.applied_of_mem hx
  rw [← hrelocations, ← hdone.relocations] at hmem
  obtain ⟨y, hy, hyx⟩ := mem_map.mp hmem
  have hstop := stop_le_of_settle (hdone.settled y hy)
  rw [hyx, Relocation.stop, hmoves.size] at hstop
  show _ ≤ (t₁.get x.1).value.getD 0 + (t₁.get x.1).size
  omega

theorem mem_packed {symbols : List SymbolId}
    (hpacked : ∀ id, (t.get id).reachable = true → (t.get id).kind.isPlaced = true →
      (t.get id).outer = none → (t₁.get id).relocations ≠ [] → id ∈ symbols)
    (hx : x ∈ movingWords d t) (houter : (t.get x.1).outer = none) : x.1 ∈ symbols := by
  obtain ⟨hmem, hmoves⟩ := mem_movingWords.mp hx
  obtain ⟨-, -, hrelocations⟩ := h.applied_of_mem hx
  exact hpacked x.1 hmoves.reachable hmoves.placed houter
    (hrelocations ▸ ne_nil_of_mem hmem)

theorem address_le (hx : x ∈ movingWords d t) (houter : (t.get x.1).outer = none) :
    (t₁.get x.1).value.getD 0 + x.2.offset + 4 ≤ 2 ^ 32 := by
  obtain ⟨lo, symbols, hpacked, hmem⟩ := h.packed
  obtain ⟨-, -, hstop⟩ := hpacked.within (mem_map_of_mem (h.mem_packed hmem hx houter))
  exact Nat.le_trans (h.stop_le_span hx) hstop

/-- **Apart.** Words of symbols that lie within no other overlap only if relocations of one symbol
do. -/
theorem apart (hx : x ∈ movingWords d t) (hy : y ∈ movingWords d t)
    (hxouter : (t.get x.1).outer = none) (hyouter : (t.get y.1).outer = none)
    (hsame : x.1 = y.1 → ¬ Overlap x.2 y.2) :
    AddressSpace.Apart (siteAddress t₂ x) (siteAddress t₂ y) := by
  rw [siteAddress, siteAddress, h.value_eq, h.value_eq]
  refine AddressSpace.apart_of_le (h.address_le hx hxouter) (h.address_le hy hyouter) ?_
  by_cases howner : x.1 = y.1
  · have hoverlap := hsame howner
    rw [Overlap, Relocation.stop, Relocation.stop, (mem_movingWords.mp hx).2.size,
      (mem_movingWords.mp hy).2.size] at hoverlap
    rw [howner]
    omega
  · -- the owners are different, and symbols are packed
    obtain ⟨lo, symbols, hpacked, hmem⟩ := h.packed
    have hapart : symbols.Pairwise fun a b => Span.Apart (t₁.span a) (t₁.span b) :=
      pairwise_map.mp hpacked.apart
    have hsymm : Std.Symm fun a b => Span.Apart (t₁.span a) (t₁.span b) := ⟨fun _ _ => Or.symm⟩
    have hspans := hapart.forall (h.mem_packed hmem hx hxouter) (h.mem_packed hmem hy hyouter)
      howner
    have hxstop := h.stop_le_span hx
    have hystop := h.stop_le_span hy
    rcases hspans with hle | hle
    · have hstart : (t₁.span y.1).start = (t₁.get y.1).value.getD 0 := rfl
      omega
    · have hstart : (t₁.span x.1).start = (t₁.get x.1).value.getD 0 := rfl
      omega

end Laid

theorem pairwise_movingWords (d : DynamicTables) (t : SymbolTable) :
    (movingWords d t).Pairwise fun x y => x.1 = y.1 →
      (t.get x.1).relocations.Pairwise (fun r r' => ¬ Overlap r r') → ¬ Overlap x.2 y.2 := by
  refine Pairwise.filter _ (pairwise_flatMap.mpr ⟨fun id _ => ?_, ?_⟩)
  · rw [pairwise_map]
    by_cases hpairwise : (t.get id).relocations.Pairwise fun r r' => ¬ Overlap r r'
    · exact hpairwise.imp fun hoverlap _ _ => hoverlap
    · exact pairwise_of_forall fun _ _ _ hpairwise' => absurd hpairwise' hpairwise
  · refine (show t.ids.Nodup from nodup_range).imp fun hne x hx y hy howner => ?_
    obtain ⟨r, -, rfl⟩ := mem_map.mp hx
    obtain ⟨r', -, rfl⟩ := mem_map.mp hy
    exact absurd howner hne

/-! ## Loading -/

/-- Relocations do not overlap: neither two of one symbol, nor words of symbols that lie within
others. -/
structure Separate (d : DynamicTables) (t t₂ : SymbolTable) : Prop where
  within : ∀ x ∈ movingWords d t, (t.get x.1).relocations.Pairwise fun r r' => ¬ Overlap r r'
  /-- words lie apart if the owner of one of them lies within another symbol -/
  contained : (movingWords d t).Pairwise fun x y =>
    (t.get x.1).outer ≠ none ∨ (t.get y.1).outer ≠ none →
      AddressSpace.Apart (siteAddress t₂ x) (siteAddress t₂ y)

instance (d : DynamicTables) (t t₂ : SymbolTable) : Decidable (Separate d t t₂) :=
  decidable_of_iff (_ ∧ _) ⟨fun h => ⟨h.1, h.2⟩, fun h => ⟨h.within, h.contained⟩⟩

theorem Laid.pairwise_apart (h : Laid d t c t₁ t₂) (hs : Separate d t t₂) :
    ((movingWords d t).map (siteAddress t₂)).Pairwise AddressSpace.Apart := by
  rw [pairwise_map]
  refine ((pairwise_movingWords d t).and hs.contained).imp_of_mem ?_
  rintro x y hx hy ⟨hsame, hcontained⟩
  by_cases houter : (t.get x.1).outer ≠ none ∨ (t.get y.1).outer ≠ none
  · exact hcontained houter
  · simp only [ne_eq, not_or, not_not] at houter
    exact h.apart hx hy houter.1 houter.2 fun howner => hsame howner (hs.within x hx)

/-- By the entries at the end of the table, a loader adjusts the words of `t` that hold addresses,
once symbols have the addresses and contents of `t₂`. -/
structure Adjusts (d : DynamicTables) (t t₂ : SymbolTable) : Prop where
  placed : ∀ x ∈ movingWords d t, ∃ address, (t₂.get x.1).value = some address ∧
    ((t.get x.1).outer = none → address + x.2.offset + 4 ≤ 2 ^ 32)
  length : (t₂.get d.rel).data.length =
    (t.get d.rel).data.length + 8 * (movingWords d t).length
  entries : entriesAt? (t₂.get d.rel).data (t.get d.rel).data.length (movingWords d t).length =
    some ((movingWords d t).map (adjustment t₂))
  /-- with the bias added to the words that the entries tell, each holds what its relocation asks
  for, and the bias -/
  biased : ∀ (m : AddressSpace) (bias : Word) (entries : List LoaderEntry), Separate d t t₂ →
    (∀ x ∈ movingWords d t,
      (t₂.get x.1).data.wordAt? x.2.offset = some (m.word (siteAddress t₂ x)).toNat) →
    entriesAt? (t₂.get d.rel).data (t.get d.rel).data.length (movingWords d t).length =
      some entries →
    ∀ x ∈ movingWords d t, ∀ target addend,
      x.2.outcome = .pending .absolute (some target) addend →
      ∃ address, (t₂.get target).value = some address ∧
        (m.relocate bias (entries.map (·.place))).word (siteAddress t₂ x) =
          .ofNat 32 address + addend.setWidth 32 + bias

theorem places_adjustments : ((movingWords d t).map (adjustment t₂)).map (·.place) =
      (movingWords d t).map (siteAddress t₂) :=
  map_map

theorem Laid.adjusts (h : Laid d t c t₁ t₂) (hreached : Reached d t) : Adjusts d t t₂ := by
  have hentries : entriesAt? (t₂.get d.rel).data (t.get d.rel).data.length
      (movingWords d t).length = some ((movingWords d t).map (adjustment t₂)) :=
    entriesAt?_eq_some fun _ _ _ hsplit => (h.entry hreached hsplit).2
  refine ⟨fun x hx => ?_, h.length_rel hreached, hentries, ?_⟩
  · obtain ⟨before, after, hsplit⟩ := append_of_mem hx
    obtain ⟨⟨address, haddress⟩, -⟩ := h.entry hreached hsplit
    refine ⟨address, haddress, fun houter => ?_⟩
    have hle := h.address_le hx houter
    rwa [← h.value_eq, haddress] at hle
  · rintro m bias entries hs hloaded hread x hx target addend houtcome
    obtain rfl := Option.some.inj (hentries.symm.trans hread)
    obtain ⟨address, haddress, hword⟩ := h.word hx houtcome
    have hheld : m.word (siteAddress t₂ x) = .ofNat 32 address + addend.setWidth 32 :=
      BitVec.eq_of_toNat_eq (Option.some.inj ((hloaded x hx).symm.trans (hword (hs.within x hx))))
    refine ⟨address, haddress, ?_⟩
    rw [places_adjustments, AddressSpace.word_relocate (h.pairwise_apart hs) (mem_map_of_mem hx),
      hheld]

/-- **Load bias.** One entry is put at the end of the table for each word that holds an address,
slots included, and nothing else changes. After layout the entries tell where those words are, and
with any bias added there each word holds the address of its target, the addend and the bias. -/
theorem adjusts_of_apply (h : Reached d t) (hs : Unplaced t) (hadd : d.addRelative t = (d', t')) :
    (∀ id, id ≠ d.rel → t'.get id = t.get id) ∧
      t'.get d.rel = withEntries (t.get d.rel) (movingWords d t) ∧
      (∀ id slot, (t.get id).isImport = false → (t.get id).gotOffset = some slot →
        (t.get (t.outermost id).1).kind.isPlaced = true ∨
          (t.get (t.outermost id).1).special = true →
        (d.got, slotWord id slot) ∈ movingWords d t) ∧
      ∀ runPath relocatable first l t₁ t₂ hosts,
        compute (d'.finish t' runPath).2 relocatable first = .ok (l, t₁) →
        apply t₁ l false = .ok (t₂, hosts) → Adjusts d t t₂ := by
  obtain ⟨-, -, hother, hrel⟩ := addRelative_spec h hadd
  refine ⟨hother, hrel, fun id slot => slot_mem_movingWords h, ?_⟩
  intro runPath relocatable first l t₁ t₂ hosts hcompute happly
  exact (laid_of_apply h hs hadd hcompute happly).adjusts h

/-- Code that loads an address from a slot and holds another one, of a part of data that holds its
own address and that of a device. -/
def biasSample : SymbolTable :=
  ⟨SymbolTable.initial.symbols ++ (
    [{ name := "main", version := 0, kind := .text, size := 8, data := [1, 2, 3, 4, 5, 6, 7, 8],
       relocations := [.pending 0 4 (.elf Elf.RelocationType.gotPrel) (some 20) 0,
         .pending 4 4 (.elf Elf.RelocationType.abs32) (some 21) 2],
       reachable := true },
     { name := "library", version := 0, kind := .data, size := 16, data := Bytes.zeros 16,
       relocations := [.pending 8 4 .absolute (some 20) 4, .pending 12 4 .absolute (some 22) 0],
       reachable := true },
     { name := "part", version := 0, kind := .data, size := 8, outer := some ⟨20, 4⟩,
       reachable := true },
     { name := "device", version := 0, kind := .constant, value := some 20480,
       reachable := true }] : List Symbol)⟩

/-- Memory with the contents of symbols at their addresses. -/
def memory (t : SymbolTable) : AddressSpace := fun a =>
  (t.symbols.toList.findSome? fun s => s.value.bind fun value =>
    if value ≤ a.toNat then s.data[a.toNat - value]? else none).getD 0

theorem adjusts_of_apply_sample : ∃ d t t₂, Reached d t ∧ Unplaced t ∧ Adjusts d t t₂ ∧
    movingWords d t = [(19, .pending 4 4 .absolute (some 21) 2),
      (20, .pending 8 4 .absolute (some 20) 4), (26, slotWord 20 0)] ∧ Separate d t t₂ ∧
    ∀ bias, [0xc04, 0x2090, 0x2000].map ((memory t₂).relocate bias [0xc04, 0x2090, 0x2000]).word =
      [8334 + bias, 8332 + bias, 8328 + bias] := by
  have hfresh : ∀ id, Fresh (biasSample.get id) := forall_get (by decide +kernel) fresh_default
  have hsentinels : biasSample.HasSentinels := by decide +kernel
  obtain ⟨d₀, t₀, hsetup, _, t, hlower, d, rfl, l, t₁, hcompute, t₂, hosts, happly, hrun⟩ :
      ∃ d₀ t₀, setup biasSample = .ok (d₀, t₀) ∧
        ∃ d? t, lower false (some d₀) t₀ = .ok (d?, t) ∧ ∃ d ∈ d?, ∃ l t₁,
          compute ((d.addRelative t).1.finish (d.addRelative t).2 none).2 true 1 = .ok (l, t₁) ∧
          ∃ t₂ hosts, apply t₁ l false = .ok (t₂, hosts) ∧
            decide ((∀ s ∈ t.symbols.toList, s.special = true → s.kind.isPlaced = false) ∧
              movingWords d t = [(19, .pending 4 4 .absolute (some 21) 2),
                (20, .pending 8 4 .absolute (some 20) 4), (26, slotWord 20 0)] ∧
              Separate d t t₂ ∧
              (∀ x ∈ movingWords d t, (t₂.get x.1).data.wordAt? x.2.offset =
                some ((memory t₂).word (siteAddress t₂ x)).toNat) ∧
              (movingWords d t).map (siteAddress t₂) = [0xc04, 0x2090, 0x2000] ∧
              (t₂.get 20).value = some 8328 ∧ (t₂.get 21).value = some 8332) := by
    decide +kernel
  obtain ⟨hspecial, hwords, hseparate, hloaded, haddresses, hlibrary, hpart⟩ :=
    of_decide_eq_true hrun
  have hreached := (Reached.setup hfresh hsetup).lower hlower
  obtain ⟨_, -, hsteps⟩ := steps_lower hlower
  have hunplaced : Unplaced t :=
    ⟨(Link.hasSentinels_setup hsentinels (setup_ok hsetup)).keeps
      (hsteps.fixed.2.map fun s => (s.name, s.version, s.special)), forall_get hspecial nofun⟩
  obtain ⟨-, -, -, hadjusts⟩ := adjusts_of_apply hreached hunplaced rfl
  have hadjusts : Adjusts d t t₂ :=
    hadjusts none true 1 l t₁ t₂ hosts hcompute happly
  refine ⟨d, t, t₂, hreached, hunplaced, hadjusts, hwords, hseparate, fun bias => ?_⟩
  have hbiased := hadjusts.biased (memory t₂) bias _ hseparate hloaded hadjusts.entries
  rw [places_adjustments, haddresses, hwords] at hbiased
  rw [hwords] at haddresses
  simp only [List.map_cons, List.map_nil, List.cons.injEq, and_true] at haddresses
  obtain ⟨hmain, hself, hslot⟩ := haddresses
  obtain ⟨_, hvalue, hmainWord⟩ :=
    hbiased (19, .pending 4 4 .absolute (some 21) 2) (by simp) 21 2 rfl
  cases hpart.symm.trans hvalue
  obtain ⟨_, hvalue, hselfWord⟩ :=
    hbiased (20, .pending 8 4 .absolute (some 20) 4) (by simp) 20 4 rfl
  cases hlibrary.symm.trans hvalue
  obtain ⟨_, hvalue, hslotWord⟩ := hbiased (26, slotWord 20 0) (by simp) 20 0 rfl
  cases hlibrary.symm.trans hvalue
  rw [hmain] at hmainWord
  rw [hself] at hselfWord
  rw [hslot] at hslotWord
  simp only [List.map_cons, List.map_nil, hmainWord, hselfWord, hslotWord]
  rfl

end DynamicTables

end ArmLink
