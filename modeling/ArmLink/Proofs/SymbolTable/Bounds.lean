import ArmLink.Proofs.SymbolTable.Definitions
import ArmLink.Proofs.SymbolTable.Operations

/-!
# Parts that fit into their containers

That a part ends before its container does is checked once, when the two are linked, and only
against a container that is defined by then. A container that a later file defines may be too small.
-/

namespace ArmLink.SymbolTable

open List

variable {t t' t'' : SymbolTable} {id root sub outer : SymbolId} {steps offset : Nat}
  {c : Container} {files : List (Object × Nat)}

/-! ## Files as operations -/

theorem performAll_of_mergeFiles (h : t.mergeFiles files = .ok t') :
    t.performAll (files.map fun f => .merge f.1 f.2) = t' ∧
      t.Permitted (files.map fun f => .merge f.1 f.2) := by
  induction files generalizing t with
  | nil =>
    obtain rfl := pure_eq_ok.mp h
    exact ⟨rfl, trivial⟩
  | cons f files ih =>
    rw [mergeFiles, foldlM_cons] at h
    obtain ⟨t₁, hfirst, hrest⟩ := bind_eq_ok.mp h
    have hperform : (Operation.merge f.1 f.2).perform t = t₁ := by
      rw [Operation.perform, hfirst]
      rfl
    obtain ⟨hall, hpermitted⟩ := ih hrest
    rw [map_cons, performAll, Permitted, hperform]
    exact ⟨hall, trivial, hpermitted⟩

theorem mergeFiles_concat {f : Object × Nat} (h : t.mergeFiles files = .ok t')
    (hlast : t'.merge f.1 f.2 = .ok t'') : t.mergeFiles (files ++ [f]) = .ok t'' := by
  rw [mergeFiles, foldlM_append]
  refine bind_eq_ok.mpr ⟨t', h, ?_⟩
  exact bind_eq_ok.mpr ⟨t'', hlast, rfl⟩

theorem coherent_mergeFiles (h : initial.mergeFiles files = .ok t) : ∃ links, Coherent links t := by
  obtain ⟨rfl, hpermitted⟩ := performAll_of_mergeFiles h
  exact ⟨_, coherent_initial.performAll hpermitted⟩

/-! ## The check -/

/-- If its container is defined, the symbol ends before the container does. -/
def Fits (t : SymbolTable) (id : SymbolId) : Prop :=
  ∀ c, (t.get id).outer = some c → (t.get c.symbol).isDefined = true →
    c.offset + (t.get id).size ≤ (t.get c.symbol).size

theorem outer_of_putWithin (h : ((t.putWithin sub outer offset).get id).outer = some c) :
    sub = id ∧ c = ⟨outer, offset⟩ ∨ (t.get id).outer = some c := by
  rw [outer_putWithin] at h
  split at h
  · rename_i hid
    exact .inl ⟨hid.1.symm, (Option.some.inj h).symm⟩
  · exact .inr h

theorem Fits.contain (h : t.Fits id) (hcontain : t.contain sub outer offset = .ok t') :
    t'.Fits id := by
  rcases contain_ok hcontain with ⟨-, rfl⟩ | ⟨-, -, hend, rfl⟩
  · exact h
  · have hsize := keeps_putWithin (p := Symbol.size) (fun _ _ _ _ => rfl) t sub outer offset
    have hdefined := keeps_putWithin (p := Symbol.isDefined) (fun _ _ _ _ => rfl) t sub outer offset
    intro c houter hc
    rw [hdefined.2] at hc
    rw [hsize.2, hsize.2]
    rcases outer_of_putWithin houter with ⟨rfl, rfl⟩ | houter
    · exact hend hc
    · exact h c houter hc

theorem isDefined_of_isSettled {s : Symbol} (h : s.isSettled) : s.isDefined = true := by
  simp [Symbol.isDefined, h.1]

/-- What was linked by one file fits, as long as the container is known once it is merged. -/
theorem fits_of_merge {links : List PendingLink} (h : Coherent links t) {o : Object} {index : Nat}
    (hmerge : t.merge o index = .ok t') (hnew : (t.get id).outer = none)
    (houter : (t'.get id).outer = some c) (hsettled : (t'.get c.symbol).isSettled) :
    c.offset + (t'.get id).size ≤ (t'.get c.symbol).size := by
  obtain ⟨pending, t₁, t₂, hsymbols, hlinks, rfl⟩ := merge_ok hmerge
  obtain ⟨h₁, -, hpending⟩ := (h.mergeSymbols o.path _ o.symbols).of_ok hsymbols
  have h₂ := (h₁.mergeLinks o.path hpending).of_ok hlinks
  have h₃ : Coherent _ (o.imports.foldl mergeImport t₂) :=
    foldl_induction h₂ fun _ i _ ht => ht.mergeImport i
  -- neither definitions nor imports make links
  rw [← h.outer_congr h₁] at hnew
  rw [h₂.outer_congr h₃] at houter
  have hfits : t₂.Fits id := by
    refine foldlM_ok_induction (P := fun t => t.Fits id) hlinks (fun c hc => ?_)
      fun _ _ _ _ ht hlink => ht.contain (mapError_eq_ok.mp hlink)
    rw [hnew] at hc
    cases hc
  -- imports change no size, and what is known after them was known before
  have hquiet : Quiet t₂ (o.imports.foldl mergeImport t₂) :=
    foldl_induction (.refl t₂) fun t₃ i _ ht => ht.trans (.mergeImport t₃ i)
  have hdefined : (t₂.get c.symbol).isDefined = true := by
    refine isDefined_of_isSettled ?_
    rw [Symbol.isSettled, ← hquiet.kind_of_ne hsettled.2.1]
    exact hsettled
  have hsize := hquiet.read (p := Symbol.size) fun _ => rfl
  rw [hsize, hsize]
  exact hfits c houter hdefined

/-! ## Links that are made in time -/

/-- One of the files says what the symbol is. -/
def DefinedBy (files : List (Object × Nat)) (t : SymbolTable) (id : SymbolId) : Prop :=
  ∃ d ∈ definitions files, d.isProper = true ∧ d.find? t = some id

/-- The symbol was put into the container by a file, and by then that file or an earlier one had
said what the container is, and what the symbol is. -/
def Timely (files : List (Object × Nat)) (id : SymbolId) (c : Container) : Prop :=
  ∃ before f after t t', files = before ++ f :: after ∧ initial.mergeFiles before = .ok t ∧
    t.merge f.1 f.2 = .ok t' ∧ (t.get id).outer = none ∧ (t'.get id).outer = some c ∧
    DefinedBy (before ++ [f]) t' id ∧ DefinedBy (before ++ [f]) t' c.symbol

theorem isSettled_of_definedBy (hkind : ∀ f ∈ files, ∀ s ∈ f.1.symbols, s.kind ≠ .dynamicImport)
    (hmerge : initial.mergeFiles files = .ok t) (h : DefinedBy files t id) :
    (t.get id).isSettled := by
  obtain ⟨d, hd, hproper, hfind⟩ := h
  obtain ⟨id', hfind', -, -, hheld⟩ := (recorded_of_kind hkind hmerge).held d hd
  cases hfind.symm.trans hfind'
  exact (hheld hproper).1

theorem Timely.fits (hkind : ∀ f ∈ files, ∀ s ∈ f.1.symbols, s.kind ≠ .dynamicImport)
    (hmerge : initial.mergeFiles files = .ok t) (h : Timely files id c) :
    (t.get id).outer = some c ∧ (t.get c.symbol).isSettled ∧
      c.offset + (t.get id).size ≤ (t.get c.symbol).size := by
  obtain ⟨before, f, after, t₀, t₁, rfl, hbefore, hf, hnew, houter, hid, hcontainer⟩ := h
  rw [append_cons] at hkind hmerge
  rw [mergeFiles, foldlM_append] at hmerge
  obtain ⟨t₁', hupto, hafter⟩ := bind_eq_ok.mp hmerge
  cases (mergeFiles_concat hbefore hf).symm.trans hupto
  obtain ⟨links, hcoherent⟩ := coherent_mergeFiles hbefore
  obtain ⟨links₁, hcoherent₁⟩ := coherent_mergeFiles hupto
  have hkind' : ∀ f' ∈ before ++ [f], ∀ s ∈ f'.1.symbols, s.kind ≠ .dynamicImport :=
    fun f' hf' => hkind f' (mem_append_left after hf')
  have hsettled := isSettled_of_definedBy hkind' hupto hid
  have hsettled' := isSettled_of_definedBy hkind' hupto hcontainer
  have hfits := fits_of_merge hcoherent hf hnew houter hsettled'
  -- from then on neither the link nor the sizes change
  have hstays := settles_mergeFiles hafter
  obtain ⟨rfl, hpermitted⟩ := performAll_of_mergeFiles hafter
  refine ⟨hcoherent₁.outer_performAll hpermitted houter, hstays.isSettled hsettled', ?_⟩
  have hsize {x : SymbolId} (hx : (t₁.get x).isSettled) :=
    congrArg Contents.size (hstays.contents x hx)
  exact Nat.le_trans (Nat.le_of_eq (congrArg (c.offset + ·) (hsize hsettled)))
    (Nat.le_trans hfits (Nat.le_of_eq (hsize hsettled').symm))

/-! ## The way outward -/

theorem LiesIn.fits (h : LiesIn t steps id root offset)
    (hlinks : ∀ steps x offset c, LiesIn t steps id x offset → (t.get x).outer = some c →
      c.offset + (t.get x).size ≤ (t.get c.symbol).size) :
    offset + (t.get id).size ≤ (t.get root).size := by
  induction h with
  | here id => exact Nat.le_of_eq (Nat.zero_add _)
  | @within steps id root offset c houter hrest ih =>
    have hfirst := hlinks 0 id 0 c (.here id) houter
    have houtward := ih fun steps x offset c' hx => hlinks (steps + 1) x _ c' (.within houter hx)
    omega

end ArmLink.SymbolTable
