import ArmLink.Proofs.Layout.Segments

/-!
# Computed layouts

What the steps of a layout do to the symbols: candidates get their kind, the symbols of sections
get their places, symbols within others and sentinels get values of their own.
-/

namespace ArmLink.Layout

open SymbolTable ArmLink.Span
open List hiding lookup

variable {t t' t₁ t₀ : SymbolTable} {id root : SymbolId} {s : Symbol} {kind : SymbolKind}
  {places : List Place} {α : Type} {delta value first textStart : Nat} {l : Layout}
  {fills : List Fill} {ids : List SymbolId} {name : String}

/-! ## Kinds -/

/-- The symbol with the kind that its contents give it. -/
def promoted (s : Symbol) : Symbol :=
  if isCandidate s then
    match promotedKind s with
    | .ok kind => { s with kind }
    | .error _ => s
  else s

theorem promoted_of_ok (hs : isCandidate s = true) (h : promotedKind s = .ok kind) :
    promoted s = { s with kind } := by
  rw [promoted, if_pos hs, h]

theorem promoted_of_not (hs : ¬ isCandidate s = true) : promoted s = s :=
  if_neg hs

theorem length_le_of_promotedKind (h : promotedKind s = .ok kind) : s.data.length ≤ s.size := by
  unfold promotedKind at h
  split at h
  · cases h
  · omega

/-- A symbol stays among those that are not stored only if it has no contents. -/
theorem no_contents_of_promotedKind (h : promotedKind s = .ok kind) (hkind : isUnstored kind = true)
    : s.data = [] ∧ s.relocations = [] := by
  unfold promotedKind at h
  split at h
  · cases h
  · split at h
    · rename_i hempty
      rw [Bool.and_eq_true, List.isEmpty_iff, List.isEmpty_iff] at hempty
      exact hempty
    · split at h
      · cases h
        cases hkind
      · cases h
        cases hkind
      · cases h
      · cases h
        rename_i hbss hnoPtr htls
        unfold isUnstored at hkind
        split at hkind
        · exact absurd ‹_› hbss
        · exact absurd ‹_› hnoPtr
        · exact absurd ‹_› htls
        · cases hkind

theorem promoted_eq (s : Symbol) : promoted s = { s with kind := (promoted s).kind } := by
  unfold promoted
  split
  · split <;> rfl
  · rfl

/-- Promotion stores what would not be stored. -/
theorem kind_promoted (s : Symbol) : (promoted s).kind = s.kind ∨
    s.kind = .bss ∧ (promoted s).kind = .data ∨
    s.kind = .noPtrBss ∧ (promoted s).kind = .noPtrData := by
  simp only [promoted]
  split
  · split
    · rename_i kind hkind
      simp only [promotedKind] at hkind
      split at hkind
      · cases hkind
      · split at hkind
        · cases hkind
          exact .inl rfl
        · split at hkind <;> cases hkind
          · exact .inr (.inl ⟨‹_›, rfl⟩)
          · exact .inr (.inr ⟨‹_›, rfl⟩)
          · exact .inl rfl
    · exact .inl rfl
  · exact .inl rfl

theorem isPlaced_promoted (h : s.kind.isPlaced = true) : (promoted s).kind.isPlaced = true := by
  rcases kind_promoted s with hkind | ⟨-, hkind⟩ | ⟨-, hkind⟩ <;> rw [hkind]
  · exact h
  · rfl
  · rfl

theorem isImport_promoted : (promoted s).isImport = s.isImport := by
  simp only [Symbol.isImport]
  rcases kind_promoted s with hkind | ⟨hs, hkind⟩ | ⟨hs, hkind⟩
  · rw [hkind]
  · rw [hkind, hs]
    rfl
  · rw [hkind, hs]
    rfl

theorem promote_step (hnodup : ids.Nodup) (h : promote t ids = .ok t') :
    t'.size = t.size ∧ ∀ j, (j ∉ ids → t'.get j = t.get j) ∧
      (j ∈ ids → t'.get j = promoted (t.get j) ∧
        (isCandidate (t.get j) = true → ∃ kind, promotedKind (t.get j) = .ok kind)) := by
  induction ids generalizing t with
  | nil =>
    obtain rfl := pure_eq_ok.mp h
    exact ⟨rfl, fun j => ⟨fun _ => rfl, fun hj => nomatch hj⟩⟩
  | cons id ids ih =>
    obtain ⟨hid, hnodup⟩ := nodup_cons.mp hnodup
    rw [promote, foldlM_cons] at h
    obtain ⟨t₂, hstep, hrest⟩ := bind_eq_ok.mp h
    obtain ⟨hsize, hget⟩ := ih hnodup hrest
    -- the first step changes the symbol at `id` only
    have hfirst : t₂.size = t.size ∧ (∀ j, j ≠ id → t₂.get j = t.get j) ∧
        t₂.get id = promoted (t.get id) ∧
        (isCandidate (t.get id) = true → ∃ kind, promotedKind (t.get id) = .ok kind) := by
      split at hstep
      · rename_i hcand
        split at hstep
        · rename_i kind hkind
          cases hstep
          refine ⟨size_modify .., fun j hj => get_modify_ne hj, ?_, fun _ => ⟨kind, hkind⟩⟩
          rw [get_modify_self (lt_size_of_isCandidate hcand), promoted_of_ok hcand hkind]
        · cases hstep
      · rename_i hcand
        cases hstep
        exact ⟨rfl, fun _ _ => rfl, (promoted_of_not hcand).symm, fun h => absurd h hcand⟩
    obtain ⟨hsize₂, hother, hself, hkind⟩ := hfirst
    refine ⟨hsize.trans hsize₂, fun j => ⟨fun hj => ?_, fun hj => ?_⟩⟩
    · obtain ⟨hne, hj⟩ := not_or.mp (mt mem_cons.mpr hj)
      rw [(hget j).1 hj, hother j hne]
    · by_cases hne : j = id
      · subst hne
        rw [(hget j).1 hid, hself]
        exact ⟨rfl, hkind⟩
      · have hj : j ∈ ids := (mem_cons.mp hj).resolve_left hne
        have := (hget j).2 hj
        rwa [hother j hne] at this

/-- A candidate's kind follows from its contents, and nothing else changes. -/
theorem promote_ok (h : promote t t.ids = .ok t') :
    t'.size = t.size ∧ (∀ id, t'.get id = promoted (t.get id)) ∧
      ∀ id, isCandidate (t.get id) = true → ∃ kind, promotedKind (t.get id) = .ok kind := by
  obtain ⟨hsize, hget⟩ := promote_step nodup_range h
  refine ⟨hsize, fun id => ?_, fun id hid => ?_⟩
  · by_cases hlt : id < t.size
    · exact ((hget id).2 (mem_ids.mpr hlt)).1
    · have hle := Nat.le_of_not_lt hlt
      rw [get_of_size_le hle, get_of_size_le (hsize ▸ hle)]
      rfl
  · exact ((hget id).2 (mem_ids.mpr (lt_size_of_isCandidate hid))).2 hid

/-! ## Places -/

theorem get_assign_of_not_mem (h : id ∉ places.map (·.symbol)) :
    (assign t places).get id = t.get id := by
  refine foldl_induction (P := fun t' : SymbolTable => t'.get id = t.get id) rfl
    fun t' p hp ht' => ?_
  have hne : id ≠ p.symbol := fun heq => h (heq ▸ mem_map_of_mem hp)
  rw [get_modify_ne hne, ht']

theorem get_assign_of_mem {p : Place} (hnodup : (places.map (·.symbol)).Nodup) (hp : p ∈ places)
    (hlt : p.symbol < t.size) : (assign t places).get p.symbol =
      { t.get p.symbol with value := some p.address, sectionId := some p.sectionId } := by
  induction places generalizing t with
  | nil => cases hp
  | cons q places ih =>
    rw [map_cons] at hnodup
    obtain ⟨hq, hnodup⟩ := nodup_cons.mp hnodup
    show (assign (t.modify q.symbol _) places).get p.symbol = _
    rcases mem_cons.mp hp with rfl | hp
    · rw [get_assign_of_not_mem hq, get_modify_self hlt]
    · have hne : p.symbol ≠ q.symbol := fun heq => hq (heq ▸ mem_map_of_mem hp)
      rw [ih hnodup hp (by rwa [size_modify]), get_modify_ne hne]

theorem keeps_assign {p : Symbol → α}
    (hp : ∀ s value sectionId, p { s with value, sectionId } = p s) (t : SymbolTable)
    (places : List Place) : Keeps p t (assign t places) :=
  Keeps.foldl fun _ _ _ => .modify (hp ..)

/-! ## Symbols without a place of their own -/

/-- The symbol, if it is not one of those that may change. -/
def spared (changes : Symbol → Bool) (s : Symbol) : Option Symbol :=
  if changes s then none else some s

theorem get_of_keeps_spared {changes : Symbol → Bool} (h : Keeps (spared changes) t t')
    (hid : changes (t.get id) = false) : t'.get id = t.get id := by
  have hget := h.2 id
  unfold spared at hget
  rw [hid] at hget
  split at hget
  · cases hget
  · exact Option.some.inj hget

/-- Only symbols within others get an address from those. -/
theorem keeps_placeWithin {p : Symbol → α}
    (hp : ∀ s value sectionId, s.outer.isSome → p { s with value, sectionId } = p s)
    (t : SymbolTable) (id : SymbolId) : Keeps p t (placeWithin t id) := by
  unfold placeWithin
  split
  · rename_i houter
    dsimp only
    split
    · split
      · exact .modify (hp _ _ _ houter)
      · exact .refl t
    · exact .refl t
  · exact .refl t

theorem keeps_spared_placeWithin (t : SymbolTable) (id : SymbolId) :
    Keeps (spared (·.outer.isSome)) t (placeWithin t id) :=
  keeps_placeWithin (fun s _ _ hs => by simp only [spared, hs, if_true]) t id

theorem get_placeWithin_ne {j : SymbolId} (h : id ≠ j) : (placeWithin t j).get id = t.get id := by
  unfold placeWithin
  split
  · dsimp only
    split
    · split
      · exact get_modify_ne h
      · rfl
    · rfl
  · rfl

/-- The symbol `id` lies at `delta` in a symbol with an address of its own. -/
structure Inside (t : SymbolTable) (id root : SymbolId) (delta value : Nat) : Prop where
  outer : (t.get id).outer.isSome = true
  outermost : t.outermost id = (root, delta)
  root_outer : (t.get root).outer = none
  root_value : (t.get root).value = some value
  root_kind : (t.get root).kind.isPlaced = true

section

variable (h : Inside t id root delta value)
include h

theorem Inside.lt_size : id < t.size := lt_size_of_get (P := (·.outer.isSome = true)) h.outer nofun

theorem Inside.placeWithin (j : SymbolId) : Inside (placeWithin t j) id root delta value ∧
      (Layout.placeWithin t j).get root = t.get root := by
  have houter : Keeps (·.outer) t (Layout.placeWithin t j) :=
    keeps_placeWithin (fun _ _ _ _ => rfl) t j
  have hroot : (Layout.placeWithin t j).get root = t.get root :=
    get_of_keeps_spared (keeps_spared_placeWithin t j) (by rw [h.root_outer]; rfl)
  refine ⟨⟨?_, ?_, ?_, ?_, ?_⟩, hroot⟩
  · rw [← h.outer]
    exact congrArg Option.isSome (houter.2 id)
  · rw [houter.outermost, h.outermost]
  · rw [hroot, h.root_outer]
  · rw [hroot, h.root_value]
  · rw [hroot, h.root_kind]

theorem Inside.get_placeWithin : (Layout.placeWithin t id).get id =
      { t.get id with
        value := some (Word64.wrap (value + delta)), sectionId := (t.get root).sectionId } := by
  unfold Layout.placeWithin
  rw [if_pos h.outer, h.outermost]
  dsimp only
  rw [h.root_value]
  dsimp only
  rw [if_pos h.root_kind, get_modify_self h.lt_size]

theorem Inside.get_foldl (hid : id ∈ ids) : (ids.foldl Layout.placeWithin t).get id =
      { t.get id with
        value := some (Word64.wrap (value + delta)), sectionId := (t.get root).sectionId } := by
  induction ids generalizing t with
  | nil => cases hid
  | cons j ids ih =>
    rw [foldl_cons]
    obtain ⟨hstep, hroot⟩ := h.placeWithin j
    by_cases hmem : id ∈ ids
    · -- the last visit gives the place
      rw [ih hstep hmem, hroot]
      by_cases hj : id = j
      · rw [← hj, h.get_placeWithin]
      · rw [get_placeWithin_ne hj]
    · obtain rfl : id = j := (mem_cons.mp hid).resolve_right hmem
      rw [← h.get_placeWithin]
      refine foldl_induction (P := fun t' : SymbolTable => t'.get id = _) rfl fun t' k hk ht' => ?_
      have hne : id ≠ k := fun heq => hmem (heq ▸ hk)
      rw [get_placeWithin_ne hne, ht']

end

/-- Reads nothing of a sentinel that its definition decides. -/
def BlindToSentinels {α : Type} (p : Symbol → α) : Prop :=
  ∀ (s : Symbol) (kind : SymbolKind) (value : Option Nat) (sectionId : Option SectionId),
    s.special = true →
      p { s with kind, value, size := 0, special := true, reachable := true, sectionId } = p s

theorem keeps_defineSentinel {p : Symbol → α} (hp : BlindToSentinels p) (h : t.HasSentinels)
    (hname : name ∈ sentinels) (kind : SymbolKind) (value : Nat) (sectionId : Option SectionId) :
    Keeps p t (defineSentinel t name kind value sectionId) := by
  obtain ⟨id, hfind, hspecial⟩ := h name hname
  have hlt := (find?_eq_some hfind).1
  have hdef : defineSentinel t name kind value sectionId = (t.modify id fun s =>
      { s with kind, value := some value, size := 0, special := true, reachable := true }).modify
      id fun s => { s with sectionId } := by
    simp only [defineSentinel, defineSpecial, lookup, hfind]
  rw [hdef]
  refine ⟨by simp, fun j => ?_⟩
  by_cases hj : j = id
  · subst hj
    rw [get_modify_self (by simpa using hlt), get_modify_self hlt]
    exact hp _ _ _ _ hspecial
  · rw [get_modify_ne hj, get_modify_ne hj]

theorem hasSentinels_defineSentinel (h : t.HasSentinels) (hname : name ∈ sentinels)
    (kind : SymbolKind) (value : Nat) (sectionId : Option SectionId) :
    (Layout.defineSentinel t name kind value sectionId).HasSentinels := by
  refine h.keeps (keeps_defineSentinel ?_ h hname kind value sectionId)
  intro s kind value sectionId hspecial
  simp only [hspecial]

theorem mem_sentinels_of_pair : ∀ e ∈ sentinelPairs, e.1 ∈ sentinels ∧ e.2.1 ∈ sentinels := by
  decide

/-- The kinds that sentinels get. -/
def sentinelKinds : List SymbolKind := sentinelPairs.map (·.2.2.2)

theorem defineSentinels_induction {Q : SymbolTable → Prop} (h : defineSentinels l t = .ok t₁)
    (ht : Q t)
    (hstep : ∀ t name kind value sectionId, name ∈ sentinels → kind ∈ sentinelKinds → Q t →
      Q (defineSentinel t name kind value sectionId)) : Q t₁ := by
  obtain ⟨t₂, hpairs, ⟨⟩⟩ := bind_pure_eq_ok.mp h
  refine hstep t₂ _ _ _ _ (by decide) (by decide) (foldlM_ok_induction (P := Q) hpairs ht ?_)
  rintro t' ⟨start, stop, name, kind⟩ t'' hpair ht' hdefine
  obtain ⟨hstart, hstop⟩ := mem_sentinels_of_pair _ hpair
  have hkind : kind ∈ sentinelKinds := mem_map_of_mem hpair
  dsimp only at hdefine
  split at hdefine
  · cases hdefine
  · cases hdefine
    exact hstep _ _ _ _ _ hstop hkind (hstep _ _ _ _ _ hstart hkind ht')

theorem keeps_defineSentinels {p : Symbol → α} (hp : BlindToSentinels p) (hs : t.HasSentinels)
    (h : defineSentinels l t = .ok t₁) : Keeps p t t₁ := by
  refine (defineSentinels_induction (Q := fun t' => Keeps p t t' ∧ t'.HasSentinels) h
    ⟨.refl t, hs⟩ ?_).1
  intro t' name kind value sectionId hname _ ht'
  exact ⟨ht'.1.trans (keeps_defineSentinel hp ht'.2 hname kind value sectionId),
    hasSentinels_defineSentinel ht'.2 hname kind value sectionId⟩

theorem get_defineSentinels (hs : t.HasSentinels) (h : defineSentinels l t = .ok t₁)
    (hid : (t.get id).special = false) : t₁.get id = t.get id := by
  refine get_of_keeps_spared (keeps_defineSentinels ?_ hs h) hid
  intro s kind value sectionId hspecial
  simp only [spared, hspecial, if_true]

theorem get_defineSentinel (t : SymbolTable) (name : String) (kind : SymbolKind) (value : Nat)
    (sectionId : Option SectionId) (id : SymbolId) :
    (defineSentinel t name kind value sectionId).get id = t.get id ∨
      ∃ s : Symbol, (defineSentinel t name kind value sectionId).get id =
        { s with
          kind, sectionId, value := some value, size := 0, special := true
          reachable := true } := by
  have hlt := (find?_eq_some (find?_lookup_self t name 0)).1
  simp only [defineSentinel, defineSpecial]
  by_cases hid : id = (t.lookup name 0).1
  · rw [hid, get_modify_self (by simpa using hlt), get_modify_self hlt]
    exact .inr ⟨_, rfl⟩
  · rw [get_modify_ne hid, get_modify_ne hid]
    exact .inl (get_lookup_ne hid)

theorem isImport_defineSentinels (h : defineSentinels l t = .ok t₁)
    (himport : (t₁.get id).isImport = true) : (t.get id).isImport = true := by
  refine defineSentinels_induction
    (Q := fun t' => (t'.get id).isImport = true → (t.get id).isImport = true) h (fun h => h) ?_
    himport
  intro t' name kind value sectionId _ hkind ht' himport
  rcases get_defineSentinel t' name kind value sectionId id with hsame | ⟨s, hdefined⟩
  · rw [hsame] at himport
    exact ht' himport
  · rw [hdefined] at himport
    have himported : ∀ kind ∈ sentinelKinds, kind ≠ .dynamicImport := by decide
    exact absurd (of_decide_eq_true himport) (himported kind hkind)

theorem reachable_defineSentinels (h : defineSentinels l t = .ok t₁)
    (hid : (t.get id).reachable = true) : (t₁.get id).reachable = true := by
  refine defineSentinels_induction (Q := fun t' => (t'.get id).reachable = true) h hid ?_
  intro t' name kind value sectionId _ _ ht'
  rcases get_defineSentinel t' name kind value sectionId id with hsame | ⟨s, hdefined⟩
  · rw [hsame, ht']
  · rw [hdefined]

theorem get_or_defined (h : defineSentinels l t = .ok t₁) (id : SymbolId) :
    t₁.get id = t.get id ∨ (t₁.get id).value ≠ none ∧ (t₁.get id).kind ∈ sentinelKinds := by
  refine defineSentinels_induction (Q := fun t' => t'.get id = t.get id ∨
    (t'.get id).value ≠ none ∧ (t'.get id).kind ∈ sentinelKinds) h (.inl rfl) ?_
  intro t' name kind value sectionId _ hkind ht'
  rcases get_defineSentinel t' name kind value sectionId id with hsame | ⟨s, hdefined⟩
  · rw [hsame]
    exact ht'
  · rw [hdefined]
    exact .inr ⟨nofun, hkind⟩

/-! ## Numbering -/

/-- The sections with the indices of their headers. -/
def number (first : Nat) (fills : List Fill) : List Fill :=
  fills.mapIdx fun i f => ({ f.1 with elfIndex := first + i }, f.2)

theorem getElem?_number {i : Nat} :
    (number first fills)[i]? = fills[i]?.map fun f => ({ f.1 with elfIndex := first + i }, f.2) :=
  getElem?_mapIdx

theorem map_fst_number : (number first fills).map (·.1) =
      (fills.map (·.1)).mapIdx fun i s => { s with elfIndex := first + i } := by
  apply ext_getElem?
  intro i
  simp only [getElem?_map, getElem?_number, getElem?_mapIdx, Option.map_map]
  rfl

theorem map_number {β : Type} {g : Fill → β}
    (hg : ∀ s places elfIndex, g ({ s with elfIndex }, places) = g (s, places)) (first : Nat)
    (fills : List Fill) : (number first fills).map g = fills.map g := by
  apply ext_getElem?
  intro i
  rw [getElem?_map, getElem?_map, getElem?_number, Option.map_map]
  exact congrArg (Option.map · fills[i]?) (funext fun f => hg f.1 f.2 (first + i))

/-- A section without the index of its header. -/
def unnumbered (s : Section) : Section := { s with elfIndex := 0 }

theorem storedLength_unnumbered (sections : List Section) (address length : Nat) :
    storedLength (sections.map unnumbered) address length =
      storedLength sections address length := by
  have hfind : (sections.map unnumbered).find? (·.type = Elf.SectionType.noBits) =
      (sections.find? (·.type = Elf.SectionType.noBits)).map unnumbered := find?_map ..
  rw [storedLength, storedLength, hfind]
  cases sections.find? (·.type = Elf.SectionType.noBits) <;> rfl

theorem holds_congr {e : Extent} {sections sections' : List Section}
    (h : e.Holds textStart sections) (heq : sections'.map unnumbered = sections.map unnumbered) :
    e.Holds textStart sections' := by
  have hspans : sections'.map Section.span = sections.map Section.span := by
    have := congrArg (map Section.span) heq
    rwa [map_map, map_map] at this
  refine ⟨hspans ▸ h.packed, h.page, h.fileOffset, ?_, h.length_lt, h.stop_le, hspans ▸ h.last⟩
  rw [h.fileLength, ← storedLength_unnumbered sections', heq, storedLength_unnumbered]

theorem Arranged.number {extents : List Extent} (h : Arranged t textStart extents fills)
    (first : Nat) : Arranged t textStart extents (number first fills) := by
  refine ⟨?_, fun i f hf => ?_, h.segments, h.packed, fun e he => ?_, h.first⟩
  · rw [map_number (fun _ _ _ => rfl), h.plain]
  · rw [getElem?_number] at hf
    obtain ⟨f', hf', rfl⟩ := Option.map_eq_some_iff.mp hf
    obtain ⟨hsymbols, hsection, hpacked, haligned⟩ := h.filled i f' hf'
    exact ⟨hsymbols, hsection, hpacked, haligned⟩
  · refine holds_congr (h.holds e he) ?_
    have hmap : ((Layout.number first fills).map (·.1)).map unnumbered =
        (fills.map (·.1)).map unnumbered := by
      rw [map_map, map_map]
      exact map_number (fun _ _ _ => rfl) first fills
    have hfilter := congrArg (filter (·.segment = e.segment)) hmap
    rwa [filter_map (f := unnumbered), filter_map (f := unnumbered)] at hfilter

/-! ## All steps -/

/-- What no step of a layout changes. -/
def untouched (s : Symbol) : Symbol :=
  { s with kind := .undefined, value := none, size := 0, sectionId := none, reachable := false }

theorem blind_untouched : BlindToSentinels untouched := by
  intro s kind value sectionId hspecial
  simp only [untouched, hspecial]

theorem untouched_promoted : untouched (promoted s) = untouched s := by
  rw [promoted_eq]
  rfl

/-- A symbol without its place. -/
def unplaced (s : Symbol) : Symbol := { s with value := none, sectionId := none }

theorem eq_of_unplaced {s' : Symbol} (h : unplaced s' = unplaced s) :
    s' = { s with value := s'.value, sectionId := s'.sectionId } :=
  calc s' = { unplaced s' with value := s'.value, sectionId := s'.sectionId } := rfl
    _ = { unplaced s with value := s'.value, sectionId := s'.sectionId } := by rw [h]

/-- From `t₀` to `t₁` symbols got these places, symbols within others got the places that follow
from them, and the sentinels got theirs. -/
structure Finished (t₀ : SymbolTable) (places : List Place) (t₁ : SymbolTable) : Prop where
  untouched : Keeps untouched t₀ t₁
  ordinary : ∀ id, (t₀.get id).special = false →
    t₁.get id = { t₀.get id with value := (t₁.get id).value, sectionId := (t₁.get id).sectionId }
  /-- a symbol that is not part of another one changes by its own place only -/
  steady : ∀ id, (t₀.get id).special = false → (t₀.get id).outer = none →
    t₁.get id = (assign t₀ places).get id
  /-- any symbol that is not part of another one does, unless it is a sentinel now -/
  sentinels : ∀ id, (t₀.get id).outer = none → t₁.get id = (assign t₀ places).get id ∨
    (t₁.get id).value ≠ none ∧ (t₁.get id).kind ∈ sentinelKinds
  inside : ∀ id root delta value, (t₀.get id).special = false → (t₀.get root).special = false →
    Inside t₁ id root delta value →
      (t₁.get id).value = some (Word64.wrap (value + delta)) ∧
        (t₁.get id).sectionId = (t₁.get root).sectionId
  imports : ∀ id, (t₁.get id).isImport = true → (t₀.get id).isImport = true
  marks : ∀ id, (t₀.get id).reachable = true → (t₁.get id).reachable = true

theorem finish_ok (hs : t₀.HasSentinels)
    (h : defineSentinels l (t₀.ids.foldl placeWithin (assign t₀ places)) = .ok t₁) :
    Finished t₀ places t₁ := by
  let tA := assign t₀ places
  let tB := t₀.ids.foldl placeWithin tA
  have hAB {α : Type} {p : Symbol → α}
      (hp : ∀ s value sectionId, s.outer.isSome → p { s with value, sectionId } = p s) :
      Keeps p tA tB := Keeps.foldl fun t id _ => keeps_placeWithin hp t id
  have hA : Keeps unplaced t₀ tA := keeps_assign (fun _ _ _ => rfl) t₀ places
  have hB : Keeps unplaced t₀ tB := hA.trans (hAB fun _ _ _ _ => rfl)
  have hsB : tB.HasSentinels := hs.reads hB fun _ => rfl
  have huntouched : Keeps Layout.untouched t₀ t₁ :=
    (hB.map Layout.untouched).trans (keeps_defineSentinels blind_untouched hsB h)
  have hlast {id : SymbolId} (hid : (t₀.get id).special = false) : t₁.get id = tB.get id :=
    get_defineSentinels hsB h (((hB.map Symbol.special).2 id).trans hid)
  have hspared {id : SymbolId} (houter : (tA.get id).outer = none) : tB.get id = tA.get id := by
    have hkeeps : Keeps (spared (·.outer.isSome)) tA tB :=
      hAB fun s _ _ hs => by simp only [spared, hs, if_true]
    refine get_of_keeps_spared hkeeps ?_
    rw [houter]
    rfl
  have hsteady {id : SymbolId} (hid : (t₀.get id).special = false)
      (houter : (tA.get id).outer = none) : t₁.get id = tA.get id :=
    (hlast hid).trans (hspared houter)
  have houterA {id : SymbolId} (houter : (t₀.get id).outer = none) : (tA.get id).outer = none :=
    ((hA.map Symbol.outer).2 id).trans houter
  refine ⟨huntouched, fun id hid => ?_, fun id hid houter => hsteady hid (houterA houter),
    fun id houter => ?_, ?_, fun id himport => ?_, fun id hid => ?_⟩
  · rw [hlast hid]
    exact eq_of_unplaced (hB.2 id)
  · rw [← hspared (houterA houter)]
    exact get_or_defined h id
  · intro id root delta value hid hroot hinside
    -- the links are those of the table with the places, and the root has its place there
    have hlinks : Keeps (·.outer) t₁ tA :=
      ⟨(hA.1.trans huntouched.1.symm), fun j =>
        ((hA.map Symbol.outer).2 j).trans ((huntouched.map Symbol.outer).2 j).symm⟩
    have hrootA : t₁.get root = tA.get root :=
      hsteady hroot ((hlinks.2 root).trans hinside.root_outer)
    have hinsideA : Inside tA id root delta value := by
      refine ⟨?_, ?_, ?_, ?_, ?_⟩
      · rw [← hinside.outer]
        exact congrArg Option.isSome (hlinks.2 id)
      · rw [hlinks.outermost, hinside.outermost]
      · rw [← hrootA, hinside.root_outer]
      · rw [← hrootA, hinside.root_value]
      · rw [← hrootA, hinside.root_kind]
    have hmem : id ∈ t₀.ids := mem_ids.mpr (hA.1 ▸ hinsideA.lt_size)
    rw [hlast hid, hrootA]
    show (tB.get id).value = _ ∧ (tB.get id).sectionId = _
    rw [hinsideA.get_foldl hmem]
    exact ⟨rfl, rfl⟩
  · exact ((hB.map Symbol.isImport).2 id).symm.trans (isImport_defineSentinels h himport)
  · exact reachable_defineSentinels h (((hB.map Symbol.reachable).2 id).trans hid)

/-- The layout `l` of `t`, with the symbols as they were when sections were made in `t₀`, and as
they are at the end in `t₁`. -/
structure Computed (t : SymbolTable) (l : Layout) (t₁ t₀ : SymbolTable) (fills : List Fill) :
    Prop where
  size : t₀.size = t.size
  promoted : ∀ id, t₀.get id = promoted (t.get id)
  promotable : ∀ id, isCandidate (t.get id) = true → ∃ kind, promotedKind (t.get id) = .ok kind
  arranged : Arranged t₀ l.textStart l.extents fills
  sections : l.sections = fills.map (·.1)
  headers : headerSpace ≤ l.textStart
  base : Alignment.page.value ∣ l.textStart - headerSpace
  finished : Finished t₀ (fills.flatMap (·.2)) t₁
  defines : ∃ t', defineSentinels l t' = .ok t₁

theorem Computed.keeps (h : Computed t l t₁ t₀ fills) : Keeps Layout.untouched t t₁ := by
  refine ⟨h.finished.untouched.1.trans h.size, fun id => ?_⟩
  rw [h.finished.untouched.2, h.promoted, untouched_promoted]

theorem Computed.imports (h : Computed t l t₁ t₀ fills) (himport : (t₁.get id).isImport = true) :
    (t.get id).isImport = true := by
  have hpromoted := h.finished.imports id himport
  rw [h.promoted, isImport_promoted] at hpromoted
  exact hpromoted

theorem Computed.marks (h : Computed t l t₁ t₀ fills) (hid : (t.get id).reachable = true) :
    (t₁.get id).reachable = true := by
  refine h.finished.marks id ?_
  rw [h.promoted, promoted_eq]
  exact hid

theorem Computed.marked (h : Computed t l t₁ t₀ fills) (hspecial : (t.get id).special = false)
    (hid : (t₁.get id).reachable = true) : (t.get id).reachable = true := by
  have hspecial₀ : (t₀.get id).special = false := by
    rw [h.promoted, promoted_eq]
    exact hspecial
  rw [h.finished.ordinary id hspecial₀, h.promoted, promoted_eq] at hid
  exact hid

theorem page_dvd_base (relocatable : Bool) :
    Alignment.page.value ∣ textStartOf relocatable - headerSpace := by
  cases relocatable <;> decide

/-- Every computed layout comes from an arrangement. -/
theorem compute_ok {relocatable : Bool} (hs : t.HasSentinels)
    (h : compute t relocatable first = .ok (l, t₁)) : ∃ t₀ fills, Computed t l t₁ t₀ fills := by
  obtain ⟨t₀, hpromote, h⟩ := bind_eq_ok.mp h
  dsimp only at h
  split at h
  · cases h
  · split at h
    · cases h
    · rename_i extents placed places hplace
      obtain ⟨t₂, hsentinels, ⟨⟩⟩ := bind_pure_eq_ok.mp h
      obtain ⟨fills, rfl, rfl, harranged⟩ := placeAll_ok (page_dvd_base relocatable) hplace
      obtain ⟨hsize, hget, hkinds⟩ := promote_ok hpromote
      have hplaces : (number first fills).flatMap (·.2) = fills.flatMap (·.2) := by
        rw [flatMap_def, flatMap_def, map_number fun _ _ _ => rfl]
      have hpromoted : Keeps Layout.untouched t t₀ :=
        ⟨hsize, fun id => by rw [hget, untouched_promoted]⟩
      have hs₀ : t₀.HasSentinels :=
        hs.reads hpromoted fun _ => rfl
      refine ⟨t₀, number first fills, hsize, hget, hkinds, harranged.number first,
        (map_fst_number ..).symm, ?_, page_dvd_base relocatable, ?_, _, hsentinels⟩
      · show headerSpace ≤ textStartOf relocatable
        cases relocatable <;> decide
      · rw [hplaces]
        exact finish_ok hs₀ hsentinels

end ArmLink.Layout
