import ArmLink.Proofs.Bytes
import ArmLink.Proofs.SymbolTable
import ArmLink.Resolve

/-!
# Application of relocations

Applying relocations writes bytes and notes outcomes, and relocations read neither. So what a
relocation amounts to does not depend on those that were applied before it, and the loops over
symbols and relocations can be read as one statement about each symbol.
-/

namespace ArmLink.Resolve

open SymbolTable List
open Relocation (Kind Outcome)

variable {t t' t₁ : SymbolTable} {c : Context} {owner id : SymbolId} {r : Relocation SymbolId}
  {s : Symbol} {done : List (Relocation SymbolId × Settlement)} {hosts : List HostRelocation}
  {ids : List SymbolId} {l : Layout} {external : Bool} {failure : Failure ResolveError SymbolTable}
  {resolved : Resolved} {x : Settlement}

/-! ## What relocations read -/

/-- A symbol without its bytes and relocations. -/
def bare (s : Symbol) : Symbol := { s with data := [], relocations := [] }

theorem resolve_congr (h : Keeps bare t t') (c : Context) (owner : SymbolId)
    (r : Relocation SymbolId) : resolve c t' owner r = resolve c t owner r := by
  have houter := (h.read Symbol.outer fun _ => rfl).outermost
  have hkind := (h.read Symbol.kind fun _ => rfl).2
  have hsize := (h.read Symbol.size fun _ => rfl).2
  have hvalue := (h.read Symbol.value fun _ => rfl).2
  have htext := (h.read Symbol.text fun _ => rfl).2
  have hdefined := (h.read Symbol.isDefined fun _ => rfl).2
  have hreach := (h.read Symbol.reachable fun _ => rfl).2
  have hsection := (h.read Symbol.sectionId fun _ => rfl).2
  simp only [resolve, restate, valueOf, houter, hkind, hsize, hvalue, htext, hdefined, hreach,
    hsection]

/-- The address of the global offset table depends on names and addresses only. -/
theorem gotAddress_congr (h : Keeps bare t t') : gotAddress t' = gotAddress t := by
  have hvalue := (h.read Symbol.value fun _ => rfl).2
  simp only [gotAddress, h.finds _ _ fun _ => rfl, hvalue]

/-- Where a relocation stands, as messages tell it. -/
def siteOf (t : SymbolTable) (owner : SymbolId) (r : Relocation SymbolId) (kind : Kind)
    (target : SymbolId) : Site :=
  ⟨kind, (t.get target).text, (t.get owner).text, r.offset⟩

theorem value_of_checked {x : Except ResolveError Word64} {check : Word64 → Except FitError Unit}
    {site : Site} (h : (do
      let value ← x
      match check value with
      | .ok () => return Resolved.value value
      | .error reason => .error (.fit site reason)) = .ok resolved) :
    ∃ v, resolved = .value v ∧ x = .ok v ∧ check v = .ok () := by
  obtain ⟨v, hv, h⟩ := bind_eq_ok.mp h
  split at h
  · rename_i hcheck
    cases pure_eq_ok.mp h
    exact ⟨v, rfl, hv, hcheck⟩
  · cases h

/-- A relocation with a target is restated for the host linker, or has a value that fits. -/
theorem resolve_pending {kind : Kind} {target : SymbolId} {addend : Word64}
    (hr : r.outcome = .pending kind (some target) addend) (h : resolve c t owner r = .ok resolved) :
    c.external = true ∧ restate t owner kind target addend r.size (siteOf t owner r kind target) =
        .ok (some resolved) ∨
      ∃ v, resolved = .value v ∧
        valueOf c t owner r kind target addend (siteOf t owner r kind target) = .ok v ∧
        checkFit kind r.size v = .ok () := by
  unfold resolve at h
  dsimp only at h
  split at h
  · cases h
  · rw [hr] at h
    dsimp only at h
    split at h
    · cases h
    · split at h
      · cases h
      · split at h
        · rename_i hexternal
          obtain ⟨restated, hrestated, h⟩ := bind_eq_ok.mp h
          split at h
          · cases pure_eq_ok.mp h
            exact .inl ⟨hexternal, hrestated⟩
          · exact .inr (value_of_checked h)
        · split at h
          · cases h
          · split at h
            · cases h
            · exact .inr (value_of_checked h)

/-- What a relocation leaves behind. -/
abbrev Settlement := Word64 × Outcome SymbolId × Option HostRelocation

/-- What a relocation of a symbol leaves behind: the value to write, what has become of it, and a
relocation for the host linker if there is one. -/
def settle (c : Context) (t : SymbolTable) (owner : SymbolId) (r : Relocation SymbolId) :
    Except ResolveError Settlement := do
  record owner (t.get owner).text r (← resolve c t owner r)

theorem settle_congr (h : Keeps bare t t') (c : Context) (owner : SymbolId)
    (r : Relocation SymbolId) : settle c t' owner r = settle c t owner r := by
  have htext := (h.read Symbol.text fun _ => rfl).2 owner
  rw [settle, settle, resolve_congr h, htext]

/-- A relocation that amounts to something lies within its owner. -/
theorem stop_le_of_settle (h : settle c t owner r = .ok x) : r.stop ≤ (t.get owner).size := by
  obtain ⟨resolved, hresolve, -⟩ := bind_eq_ok.mp h
  unfold resolve at hresolve
  dsimp only at hresolve
  split at hresolve
  · cases hresolve
  · omega

/-! ## The relocations of a symbol -/

/-- A symbol with relocations applied: `done` are the first of its relocations, with what each of
them leaves behind. -/
def patched (s : Symbol) (done : List (Relocation SymbolId × Settlement)) : Symbol :=
  { s with
    data := done.foldl (fun data x =>
      Bytes.patch data x.1.offset (Bytes.ofNat x.1.size x.2.1.toNat)) s.data
    relocations := done.map (fun x => { x.1 with outcome := x.2.2.1 })
      ++ s.relocations.drop done.length }

theorem bare_patched : bare (patched s done) = bare s := rfl

/-- The symbol `s` is the owner with all of its relocations applied. -/
structure Applied (c : Context) (t : SymbolTable) (owner : SymbolId) (s : Symbol)
    (done : List (Relocation SymbolId × Settlement)) : Prop where
  relocations : done.map (·.1) = (t.get owner).relocations
  settled : ∀ x ∈ done, settle c t owner x.1 = .ok x.2
  symbol : s = patched (t.get owner) done

/-- All relocations of the owner were applied, so none is left behind them. -/
theorem Applied.relocations_eq (h : Applied c t owner s done) :
    s.relocations = done.map fun x => { x.1 with outcome := x.2.2.1 } := by
  have hlength : (t.get owner).relocations.length = done.length := by
    rw [← h.relocations, length_map]
  rw [h.symbol, patched, drop_of_length_le (Nat.le_of_eq hlength), append_nil]

theorem Applied.length_data_le (h : Applied c t owner s done) :
    s.data.length ≤ max (t.get owner).data.length (t.get owner).size := by
  rw [h.symbol]
  refine foldl_induction (P := fun data : Bytes => data.length ≤ max _ _) (Nat.le_max_left _ _)
    fun data x hx hdata => ?_
  have hstop := stop_le_of_settle (h.settled x hx)
  rw [Bytes.length_patch, Bytes.length_ofNat]
  exact Nat.max_le.mpr ⟨hdata, Nat.le_trans hstop (Nat.le_max_right _ _)⟩

/-- Two relocations patch a common byte. -/
def Overlap (r r' : Relocation SymbolId) : Prop :=
  max r.offset r'.offset < min r.stop r'.stop

instance (r r' : Relocation SymbolId) : Decidable (Overlap r r') :=
  inferInstanceAs (Decidable (_ < _))

theorem slice?_patched {before after : List (Relocation SymbolId × Settlement)}
    {x : Relocation SymbolId × Settlement} (s : Symbol) (h : ∀ y ∈ after, ¬ Overlap x.1 y.1) :
    (patched s (before ++ x :: after)).data.slice? x.1.offset x.1.size =
      some (Bytes.ofNat x.1.size x.2.1.toNat) := by
  unfold patched
  rw [foldl_append, foldl_cons]
  refine foldl_induction (P := fun data : Bytes => data.slice? x.1.offset x.1.size = _) ?_ ?_
  · have hself (data : Bytes) := data.slice?_patch_self x.1.offset (.ofNat x.1.size x.2.1.toNat)
    simp only [Bytes.length_ofNat] at hself
    exact hself _
  · intro data y hy hslice
    refine Bytes.slice?_patch_of_apart hslice fun i hle hlt hmem => h y hy ?_
    rw [Bytes.length_ofNat] at hmem
    exact Nat.lt_of_le_of_lt (Nat.max_le.mpr ⟨hle, hmem.1⟩) (Nat.lt_min.mpr ⟨hlt, hmem.2⟩)

/-- **Sites.** A relocation of the symbol leaves behind what it amounts to. -/
theorem Applied.site {before after : List (Relocation SymbolId)} (h : Applied c t owner s done)
    (hr : (t.get owner).relocations = before ++ r :: after) :
    ∃ x, settle c t owner r = .ok x ∧ (r, x) ∈ done ∧
      s.relocations[before.length]? = some { r with outcome := x.2.1 } ∧
      ((∀ r' ∈ after, ¬ Overlap r r') →
        s.data.slice? r.offset r.size = some (Bytes.ofNat r.size x.1.toNat)) := by
  obtain ⟨done₁, rest, rfl, hdone₁, hrest⟩ := map_eq_append_iff.mp (h.relocations.trans hr)
  obtain ⟨⟨r, x⟩, done₂, rfl, rfl, hdone₂⟩ := map_eq_cons_iff.mp hrest
  have hmem : (r, x) ∈ done₁ ++ (r, x) :: done₂ := mem_append_right _ mem_cons_self
  refine ⟨x, h.settled _ hmem, hmem, ?_, fun hafter => ?_⟩
  · rw [h.symbol, patched, ← hdone₁]
    simp
  · rw [h.symbol]
    exact slice?_patched (x := (r, x)) _ fun y hy => hafter _ (hdone₂ ▸ mem_map_of_mem hy)

theorem applyAt_eq {index : Nat} (hr : (t.get owner).relocations[index]? = some r) :
    applyAt c owner t index = (settle c t owner r).map fun x =>
      (t.modify owner (patchSymbol index r x.1 x.2.1), x.2.2) := by
  unfold applyAt settle
  rw [hr]
  dsimp only
  cases resolve c t owner r with
  | error e => rfl
  | ok resolved =>
    show (record owner (t.get owner).text r resolved >>= _) = (record _ _ _ _).map _
    cases record owner (t.get owner).text r resolved with
    | error e => rfl
    | ok x => rfl

theorem patchSymbol_patched (hr : s.relocations[done.length]? = some r) :
    patchSymbol done.length r x.1 x.2.1 (patched s done) = patched s (done ++ [(r, x)]) := by
  obtain ⟨hlt, rfl⟩ := List.getElem?_eq_some_iff.mp hr
  unfold patchSymbol patched
  simp only [foldl_append, foldl_cons, foldl_nil, map_append, map_cons,
    map_nil, length_append, length_singleton]
  congr 1
  rw [set_append_right _ _ (Nat.le_of_eq (length_map ..)), length_map, Nat.sub_self,
    drop_eq_getElem_cons hlt, set_cons_zero, append_assoc]
  rfl

theorem getElem?_of_patched {s' : Symbol} (hs' : s' = patched s done)
    (hr : s.relocations[done.length]? = some r) : s'.relocations[done.length]? = some r := by
  rw [hs']
  show (done.map _ ++ s.relocations.drop done.length)[done.length]? = _
  rw [getElem?_append_right (Nat.le_of_eq (length_map ..)), length_map,
    Nat.sub_self, getElem?_drop, Nat.add_zero, hr]

/-- The loop over the relocations of a symbol, from the point where `done` were applied. -/
theorem gives_applyAll {n : Nat} (hkeeps : Keeps bare t t₁) (hlt : owner < t.size)
    (hget : t₁.get owner = patched s done) (hlength : done.length + n = s.relocations.length) :
    Gives (fun failure => ∃ r ∈ s.relocations, settle c t owner r = .error failure.error)
      (fun result => ∃ more, more.map (·.1) = s.relocations.drop done.length ∧
        (∀ x ∈ more, settle c t owner x.1 = .ok x.2) ∧ result.1.size = t₁.size ∧
        (∀ id, id ≠ owner → result.1.get id = t₁.get id) ∧
        result.1.get owner = patched s (done ++ more) ∧ result.2 = more.filterMap (·.2.2.2))
      (applyAll c owner (range' done.length n) t₁) := by
  induction n generalizing done t₁ with
  | zero =>
    refine gives_pure ⟨[], ?_, fun _ hx => (nomatch hx), rfl, fun _ _ => rfl, ?_, rfl⟩
    · rw [drop_of_length_le (by omega)]
      rfl
    · rw [append_nil, hget]
  | succ n ih =>
    have hidx : done.length < s.relocations.length := by omega
    have hr : s.relocations[done.length]? = some s.relocations[done.length] :=
      getElem?_eq_getElem hidx
    rw [range'_succ, applyAll, applyAt_eq (getElem?_of_patched hget hr), settle_congr hkeeps]
    cases hsettle : settle c t owner s.relocations[done.length] with
    | error e => exact gives_error ⟨_, getElem_mem _, hsettle⟩
    | ok x =>
      have hget₂ : (t₁.modify owner (patchSymbol done.length s.relocations[done.length] x.1
          x.2.1)).get owner = patched s (done ++ [(s.relocations[done.length], x)]) := by
        rw [get_modify_self (hkeeps.1 ▸ hlt), hget]
        exact patchSymbol_patched hr
      have hrest := ih (hkeeps.trans (.modify rfl)) hget₂ (by simp; omega)
      rw [length_append] at hrest
      refine hrest.bind fun result ⟨more, hmore, hsettled, hsize, hother, hpatched, hhosts⟩ => ?_
      refine gives_pure ⟨(_, x) :: more, ?_, forall_mem_cons.mpr ⟨hsettle, hsettled⟩, ?_,
        fun id hid => ?_, ?_, ?_⟩
      · rw [drop_eq_getElem_cons hidx, map_cons, hmore]
        rfl
      · rw [hsize, size_modify]
      · rw [hother id hid, get_modify_ne hid]
      · rw [hpatched, append_assoc]
        rfl
      · rw [hhosts]
        cases hhost : x.2.2 <;> simp [hhost]

/-- What the relocations of a symbol leave behind. -/
def settlements (c : Context) (t : SymbolTable) (owner : SymbolId) :
    List (Relocation SymbolId × Settlement) :=
  (t.get owner).relocations.filterMap fun r => (settle c t owner r).toOption.map (r, ·)

theorem Applied.eq_settlements (h : Applied c t owner s done) : done = settlements c t owner := by
  rw [settlements, ← h.relocations, filterMap_map]
  refine filterMap_some.symm.trans (filterMap_congr fun x hx => ?_)
  simp [h.settled x hx, Except.toOption]

/-! ## All symbols -/

/-- Whether the relocations of a symbol are applied. -/
def isSite (s : Symbol) : Bool := s.reachable && s.kind.isPlaced

theorem lt_size_of_isSite (h : isSite (t.get id) = true) : id < t.size :=
  lt_size_of_get (P := (isSite · = true)) h nofun

/-- What application does to one symbol, given the relocations left to the host linker. -/
structure AppliedAt (c : Context) (t t' : SymbolTable) (hosts : List HostRelocation)
    (id : SymbolId) : Prop where
  site : isSite (t.get id) = true → ∃ done, Applied c t id (t'.get id) done ∧
    ∀ x ∈ done, ∀ host ∈ x.2.2.2, host ∈ hosts
  other : isSite (t.get id) = false → t'.get id = t.get id

variable (h : AppliedAt c t t' hosts id)
include h

/-- Contents that fit still fit once relocations are applied. -/
theorem AppliedAt.length_data_le (hle : (t.get id).data.length ≤ (t.get id).size) :
    (t'.get id).data.length ≤ (t.get id).size := by
  cases hsite : isSite (t.get id) with
  | false => rwa [h.other hsite]
  | true =>
    obtain ⟨done, happlied, -⟩ := h.site hsite
    exact Nat.max_eq_right hle ▸ happlied.length_data_le

theorem AppliedAt.get_eq (hnone : (t.get id).relocations = []) : t'.get id = t.get id := by
  cases hsite : isSite (t.get id) with
  | false => exact h.other hsite
  | true =>
    obtain ⟨done, happlied, -⟩ := h.site hsite
    have hempty : done = [] := map_eq_nil_iff.mp (happlied.relocations.trans hnone)
    rw [happlied.symbol, hempty]
    rfl

omit h

/-- What application makes of a symbol. -/
def Becomes (c : Context) (t : SymbolTable) (id : SymbolId) (s : Symbol) : Prop :=
  (isSite (t.get id) = true → Applied c t id s (settlements c t id)) ∧
    (isSite (t.get id) = false → s = t.get id)

/-- What a symbol leaves to the host linker. -/
def hostsOf (c : Context) (t : SymbolTable) (id : SymbolId) : List HostRelocation :=
  if isSite (t.get id) then (settlements c t id).filterMap (·.2.2.2) else []

theorem applySymbols_eq : applySymbols c (id :: ids) t =
      ((if isSite (t.get id) then applyAll c id (range (t.get id).relocations.length) t
        else .ok (t, [])) >>= fun first =>
      applySymbols c ids first.1 >>= fun rest => .ok (rest.1, first.2 ++ rest.2)) := by
  cases hsite : isSite (t.get id) with
  | true => exact if_pos hsite
  | false => exact if_neg (Bool.eq_false_iff.mp hsite)

/-- One symbol changes itself only, and ends as it should. -/
theorem gives_applySymbol (hkeeps : Keeps bare t t₁) (hget : t₁.get id = t.get id) :
    Gives (fun failure => isSite (t.get id) = true ∧
        ∃ r ∈ (t.get id).relocations, settle c t id r = .error failure.error)
      (fun result => Keeps bare t result.1 ∧ (∀ j, j ≠ id → result.1.get j = t₁.get j) ∧
        Becomes c t id (result.1.get id) ∧ result.2 = hostsOf c t id)
      (if isSite (t.get id) then applyAll c id (range (t.get id).relocations.length) t₁
        else .ok (t₁, [])) := by
  unfold Becomes hostsOf
  cases hsite : isSite (t.get id) with
  | false => exact gives_pure ⟨hkeeps, fun _ _ => rfl, ⟨nofun, fun _ => hget⟩, rfl⟩
  | true =>
    rw [if_pos rfl, range_eq_range']
    have hstart : t₁.get id = patched (t.get id) [] := hget
    refine ((gives_applyAll hkeeps (lt_size_of_isSite hsite) hstart (Nat.zero_add _)).imp
      fun _ h => ⟨rfl, h⟩).mono ?_
    rintro ⟨t', hosts⟩ ⟨done, hdone, hsettled, hsize, hother, hpatched, hhosts⟩
    have happlied : Applied c t id (t'.get id) done := ⟨hdone, hsettled, hpatched⟩
    refine ⟨⟨hsize.trans hkeeps.1, fun j => ?_⟩, hother, ⟨fun _ => ?_, nofun⟩, ?_⟩
    · by_cases hj : j = id
      · rw [hj, hpatched, bare_patched]
      · rw [hother j hj, hkeeps.2]
    · exact happlied.eq_settlements ▸ happlied
    · rw [← happlied.eq_settlements]
      exact hhosts

/-- The loop over symbols, from a point where the others may have been changed. -/
theorem gives_applySymbols (hnodup : ids.Nodup) (hkeeps : Keeps bare t t₁)
    (hget : ∀ id ∈ ids, t₁.get id = t.get id) :
    Gives (fun failure => ∃ id, isSite (t.get id) = true ∧
        ∃ r ∈ (t.get id).relocations, settle c t id r = .error failure.error)
      (fun result => Keeps bare t result.1 ∧ (∀ id, id ∉ ids → result.1.get id = t₁.get id) ∧
        (∀ id ∈ ids, Becomes c t id (result.1.get id)) ∧ result.2 = ids.flatMap (hostsOf c t))
      (applySymbols c ids t₁) := by
  induction ids generalizing t₁ with
  | nil => exact gives_pure ⟨hkeeps, fun _ _ => rfl, fun _ hid => (nomatch hid), rfl⟩
  | cons id ids ih =>
    obtain ⟨hid, hnodup⟩ := nodup_cons.mp hnodup
    obtain ⟨hgetId, hgetIds⟩ := forall_mem_cons.mp hget
    rw [applySymbols_eq, hgetId]
    refine ((gives_applySymbol hkeeps hgetId).imp fun _ h => ⟨id, h⟩).bind
      fun first ⟨hkeeps₂, hother, hself, hhosts⟩ => ?_
    have hget₂ : ∀ j ∈ ids, first.1.get j = t.get j := fun j hj => by
      rw [hother j fun heq => hid (heq ▸ hj), hgetIds j hj]
    refine (ih hnodup hkeeps₂ hget₂).bind fun rest ⟨hkeeps', hother', hall, hmore⟩ => ?_
    refine gives_pure ⟨hkeeps', fun j hj => ?_, forall_mem_cons.mpr ⟨?_, hall⟩, ?_⟩
    · obtain ⟨hne, hj⟩ := not_or.mp (mt mem_cons.mpr hj)
      rw [hother' j hj, hother j hne]
    · rw [hother' id hid]
      exact hself
    · rw [hhosts, hmore, flatMap_cons]

/-- **Application.** Every symbol that has a place gets what its relocations amount to in the table
as it was, and what they leave to the host linker comes in the order of the symbols. Nothing but a
relocation that amounts to nothing makes it fail. -/
theorem gives_apply (t : SymbolTable) (l : Layout) (external : Bool) :
    Gives (fun failure => ∃ id, isSite (t.get id) = true ∧ ∃ r ∈ (t.get id).relocations,
        settle ⟨l, external, gotAddress t⟩ t id r = .error failure.error)
      (fun result => Keeps bare t result.1 ∧
        (∀ id, Becomes ⟨l, external, gotAddress t⟩ t id (result.1.get id)) ∧
        result.2 = t.ids.flatMap (hostsOf ⟨l, external, gotAddress t⟩ t))
      (apply t l external) := by
  refine (gives_applySymbols nodup_range (.refl t) fun _ _ => rfl).mono ?_
  rintro ⟨t', hosts⟩ ⟨hkeeps, hother, hall, hhosts⟩
  refine ⟨hkeeps, fun id => ?_, hhosts⟩
  by_cases hid : id ∈ t.ids
  · exact hall id hid
  · exact ⟨fun hsite => absurd (mem_ids.mpr (lt_size_of_isSite hsite)) hid, fun _ => hother id hid⟩

/-- **Applied everywhere.** The relocations of every symbol that has a place are applied, and all
other symbols stay as they are. -/
theorem apply_ok (h : apply t l external = .ok (t', hosts)) :
    Keeps bare t t' ∧ ∀ id, AppliedAt ⟨l, external, gotAddress t⟩ t t' hosts id := by
  obtain ⟨hkeeps, hall, rfl⟩ := (gives_apply t l external).of_ok h
  refine ⟨hkeeps, fun id => ⟨fun hsite => ⟨_, (hall id).1 hsite, ?_⟩, (hall id).2⟩⟩
  intro x hx host hhost
  refine mem_flatMap.mpr ⟨id, mem_ids.mpr (lt_size_of_isSite hsite), ?_⟩
  rw [hostsOf, if_pos hsite]
  exact mem_filterMap.mpr ⟨x, hx, hhost⟩

/-- A relocation of a symbol that has a place leaves this one behind. -/
def LeavesBehind (c : Context) (t : SymbolTable) (host : HostRelocation) : Prop :=
  ∃ id r v outcome, isSite (t.get id) = true ∧ r ∈ (t.get id).relocations ∧
    settle c t id r = .ok (v, outcome, some host)

/-- **Left to the host linker.** Whatever is, a relocation of a symbol that has a place leaves it
behind. -/
theorem leavesBehind_of_apply (h : apply t l external = .ok (t', hosts)) :
    ∀ host ∈ hosts, LeavesBehind ⟨l, external, gotAddress t⟩ t host := by
  obtain ⟨-, hall, rfl⟩ := (gives_apply t l external).of_ok h
  intro host hhost
  obtain ⟨id, -, hhost⟩ := mem_flatMap.mp hhost
  unfold hostsOf at hhost
  split at hhost
  · rename_i hsite
    have happlied := (hall id).1 hsite
    obtain ⟨⟨r, v, outcome, host?⟩, hx, rfl⟩ := mem_filterMap.mp hhost
    exact ⟨id, r, v, outcome, hsite, happlied.relocations ▸ mem_map_of_mem hx,
      happlied.settled _ hx⟩
  · cases hhost

/-- **Failure.** If application fails, a relocation of a symbol that has a place amounts to
nothing. -/
theorem apply_error (h : apply t l external = .error failure) :
    ∃ id r, isSite (t.get id) = true ∧ r ∈ (t.get id).relocations ∧
      settle ⟨l, external, gotAddress t⟩ t id r = .error failure.error := by
  obtain ⟨id, hsite, r, hr, hsettle⟩ := (gives_apply t l external).of_error h
  exact ⟨id, r, hsite, hr, hsettle⟩

end ArmLink.Resolve
