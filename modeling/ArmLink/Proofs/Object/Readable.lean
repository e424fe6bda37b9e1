import ArmLink.Object.Reader
import ArmLink.Proofs.Arm.Patches

/-!
# What object files can say

Not every symbol can be described by an object file: there are kinds that have no spelling, nothing
is left to a host linker yet, and a part of another symbol has no contents of its own. What a reader
can give is found out from its parts.
-/

namespace ArmLink

open List

namespace Data

variable {α β : Type} {P : α → Prop} {Q : β → Prop}

/-- What the reader finds has the property. -/
def Reader.Gives (P : α → Prop) (r : Reader α) : Prop := ∀ d v a, r d v = .ok a → P a

/-- What is made of the fields has the property. -/
def Fields.Gives (P : α → Prop) (fs : Fields α) : Prop :=
  ∀ d absent values a, fs.collect d absent values = .ok a → P a

theorem Reader.Gives.list {r : Reader α} (h : r.Gives P) :
    (Reader.list r).Gives fun as => ∀ a ∈ as, P a := by
  intro d v as hread a ha
  cases v with
  | list items =>
    obtain ⟨item, -, hitem⟩ := exists_of_mapM_ok hread a ha
    exact h d item a hitem
  | _ => cases hread

theorem gives_choice {variants : List (String × Variant α)}
    (h : ∀ v ∈ variants, ∃ a, v.2 = .unit a ∧ P a) : (choice variants).Gives P := by
  intro d v a hread
  -- a name alone and a name with contents are looked up in the same list
  have hfound {name : String} {variant : Variant α}
      (hlookup : variants.lookup name = some variant) : ∃ b, variant = .unit b ∧ P b := by
    obtain ⟨l₁, l₂, hsplit, -⟩ := lookup_eq_some_iff.mp hlookup
    exact h (name, variant) (hsplit ▸ mem_append_right l₁ mem_cons_self)
  unfold choice at hread
  split at hread
  · split at hread
    · rename_i hlookup
      obtain ⟨b, rfl, hb⟩ := hfound hlookup
      cases hread
      exact hb
    · cases hread
  · split at hread
    · rename_i hlookup
      obtain ⟨b, rfl, hb⟩ := hfound hlookup
      unfold Variant.ofContents at hread
      dsimp only at hread
      split at hread <;> cases hread
      all_goals exact hb
    · cases hread
  all_goals cases hread

namespace Fields.Gives

theorem required {r : Reader α} (h : r.Gives P) (name : String) :
    (Fields.required name r).Gives P := by
  intro d absent values a hread
  dsimp only [Fields.required] at hread
  split at hread
  · exact h d _ a hread
  · cases hread

theorem withDefault {r : Reader α} (h : r.Gives P) {otherwise : α} (hotherwise : P otherwise)
    (name : String) : (Fields.withDefault name r otherwise).Gives P := by
  intro d absent values a hread
  dsimp only [Fields.withDefault] at hread
  split at hread
  · exact h d _ a hread
  · cases hread
    exact hotherwise

theorem map {f : α → β} {fs : Fields α} (h : fs.Gives fun a => Q (f a)) : (f <$> fs).Gives Q := by
  intro d absent values b hread
  obtain ⟨a, ha, ⟨⟩⟩ := bind_pure_eq_ok.mp ((map_eq_pure_bind f _).symm.trans hread)
  exact h d absent values a ha

/-- What is made of two groups of fields is what the first makes of the second. -/
theorem seq {fs : Fields (α → β)} {gs : Fields α} (hfs : fs.Gives fun f => ∀ a, P a → Q (f a))
    (hgs : gs.Gives P) : (fs <*> gs).Gives Q := by
  intro d absent values b hread
  obtain ⟨f, hf, hread⟩ := bind_eq_ok.mp hread
  obtain ⟨a, ha, ⟨⟩⟩ := bind_pure_eq_ok.mp hread
  exact hfs d absent values f hf a (hgs d absent values a ha)

theorem trivial (fs : Fields α) : fs.Gives fun _ => True := fun _ _ _ _ _ => .intro

theorem read {fs : Fields α} (h : fs.Gives P) (strict : Bool) : (fs.read strict).Gives P := by
  have hentries d entries a (hread : fs.ofEntries strict d entries = .ok a) : P a := by
    obtain ⟨-, -, hread⟩ := bind_eq_ok.mp hread
    exact h _ _ _ a hread
  intro d v a hread
  cases v with
  | table entries => exact hentries d entries a hread
  | dateTime => exact hentries d _ a hread
  | list items =>
    obtain ⟨-, -, hread⟩ := bind_eq_ok.mp hread
    obtain ⟨b, hb, hread⟩ := bind_eq_ok.mp hread
    split at hread
    · cases hread
    · cases pure_eq_ok.mp hread
      exact h _ _ _ _ hb
  | _ => cases hread

end Fields.Gives

end Data

namespace Object

open Data

theorem gives_entry :
    (SymbolEntry.fields.read true).Gives fun e => ∃ s ∈ kindSpellings, e.kind.val = s.2 := by
  have hkind : kindReader.Gives fun kind => ∃ s ∈ kindSpellings, kind.val = s.2 := by
    refine gives_choice fun v hv => ?_
    obtain ⟨s, -, rfl⟩ := mem_map.mp hv
    exact ⟨_, rfl, s.val, s.property, rfl⟩
  refine Fields.Gives.read ?_ true
  -- the kind is the second of the fields; the others may hold anything
  iterate 11 refine .seq ?_ (.trivial _)
  refine .seq (.map ?_) (.required hkind "kind")
  intro _ _ _ name _ kind hspelled
  intros
  exact hspelled

/-- **Symbols.** What becomes of an entry: its contents are assembled, its relocations are added to
theirs, and if it is part of another symbol there is nothing of either. -/
theorem symbol_ok {e : SymbolEntry} {s : ObjectSymbol} (h : symbol e = .ok s) :
    ∃ body patches, contents e = .ok body ∧
      e.relocations.mapM (relocation · body.bytes) = .ok patches ∧ s.kind = e.kind.val ∧
      s.data = body.bytes ∧ s.size = e.size.getD body.bytes.length ∧
      s.relocations = body.relocations ++ patches ∧
      (s.outer ≠ none → s.data = [] ∧ s.relocations = []) := by
  obtain ⟨body, hbody, h⟩ := bind_eq_ok.mp h
  obtain ⟨patches, hpatches, h⟩ := bind_eq_ok.mp h
  refine ⟨body, patches, hbody, hpatches, ?_⟩
  -- whatever comes of the value and the alignment, the rest is the same
  have hmade (align : Except SymbolFault (Option Alignment))
      (make : Option Nat → Option Alignment → ObjectSymbol)
      (hempty : e.outer ≠ none → body.bytes = [] ∧ body.relocations ++ patches = [])
      (hmake : ∀ value alignment, (make value alignment).kind = e.kind.val ∧
        (make value alignment).data = body.bytes ∧
        (make value alignment).size = e.size.getD body.bytes.length ∧
        (make value alignment).relocations = body.relocations ++ patches ∧
        (make value alignment).outer = e.outer.map (·, e.outerOffset))
      (h : (do return make (← constantValue e) (← align)) = Except.ok s) :
      s.kind = e.kind.val ∧ s.data = body.bytes ∧ s.size = e.size.getD body.bytes.length ∧
        s.relocations = body.relocations ++ patches ∧
        (s.outer ≠ none → s.data = [] ∧ s.relocations = []) := by
    obtain ⟨value, -, h⟩ := bind_eq_ok.mp h
    obtain ⟨alignment, -, ⟨⟩⟩ := bind_pure_eq_ok.mp h
    obtain ⟨hkind, hdata, hsize, hrelocations, houter⟩ := hmake value alignment
    refine ⟨hkind, hdata, hsize, hrelocations, fun hsome => ?_⟩
    rw [hdata, hrelocations]
    refine hempty fun hnone => hsome ?_
    rw [houter, hnone]
    rfl
  cases houter : e.outer with
  | none =>
    cases halign : e.align <;> rw [houter, halign] at h <;>
      exact hmade _ _ (fun hsome => absurd houter hsome)
        (fun _ _ => ⟨rfl, rfl, rfl, rfl, houter ▸ rfl⟩) h
  | some outer =>
    cases halign : e.align <;> rw [houter, halign] at h <;> dsimp only at h <;> split at h
    case none.isTrue | some.isTrue => cases h
    all_goals
      rename_i hempty
      simp only [Bool.not_eq_true', Bool.not_eq_false, Bool.and_eq_true, List.isEmpty_iff] at hempty
      exact hmade _ _ (fun _ => hempty) (fun _ _ => ⟨rfl, rfl, rfl, rfl, houter ▸ rfl⟩) h

theorem gives_object : (objectFields.read true).Gives
    fun o => ∀ e ∈ o.1, ∃ s ∈ kindSpellings, e.kind.val = s.2 := by
  have hsymbols : (Fields.withDefault "symbol" (.list (SymbolEntry.fields.read true)) []).Gives
      fun entries => ∀ e ∈ entries, ∃ s ∈ kindSpellings, e.kind.val = s.2 :=
    .withDefault gives_entry.list (forall_mem_nil _) "symbol"
  have hpair : (Prod.mk <$> Fields.withDefault "symbol" (.list (SymbolEntry.fields.read true)) [] :
      Fields (List ObjectImport → List SymbolEntry × List ObjectImport)).Gives
      fun make => ∀ imports, True → ∀ e ∈ (make imports).1, ∃ s ∈ kindSpellings, e.kind.val = s.2 :=
    .map fun d absent values entries hread _ _ => hsymbols d absent values entries hread
  exact Fields.Gives.read (.seq hpair (.trivial _)) true

theorem isDeferred_of_relocation {e : RelocationEntry} {data : Bytes} {r : Relocation String}
    (h : relocation e data = .ok r) : r.isDeferred = false := by
  unfold relocation at h
  split at h
  · obtain ⟨kind?, -, h⟩ := bind_eq_ok.mp h
    cases kind? with
    | none =>
      cases pure_eq_ok.mp h
      rfl
    | some kind =>
      obtain ⟨addend, -, ⟨⟩⟩ := bind_pure_eq_ok.mp h
      rfl
  · cases h

theorem patches_of_contents {e : SymbolEntry} {body : Arm.Body} (h : contents e = .ok body) :
    ∀ r ∈ body.relocations, r.isDeferred = false ∧ r.stop ≤ body.bytes.length := by
  unfold contents at h
  dsimp only at h
  split at h
  · cases h
  · split at h
    case h_4 =>
      split at h
      · obtain ⟨hpacked, hfields⟩ := Arm.packed_of_assemble (mapError_eq_ok.mp h)
        exact fun r hr => ⟨(hfields r hr).2, (hpacked.within (mem_map_of_mem hr)).2.2⟩
      · cases h
    all_goals
      cases h
      exact forall_mem_nil _

end Object

/-- A symbol as an object file can describe it. -/
structure ObjectSymbol.Readable (s : ObjectSymbol) : Prop where
  kind : ∃ spelling ∈ Object.kindSpellings, s.kind = spelling.2
  isDeferred : ∀ r ∈ s.relocations, r.isDeferred = false
  contained : s.outer ≠ none → s.data = [] ∧ s.relocations = []

instance (s : ObjectSymbol) : Decidable s.Readable :=
  decidable_of_iff ((∃ spelling ∈ Object.kindSpellings, s.kind = spelling.2) ∧
      (∀ r ∈ s.relocations, r.isDeferred = false) ∧
      (s.outer ≠ none → s.data = [] ∧ s.relocations = []))
    ⟨fun h => ⟨h.1, h.2.1, h.2.2⟩, fun h => ⟨h.kind, h.isDeferred, h.contained⟩⟩

namespace Object

/-- **Symbols of files.** The symbols of an object that was read are readable. -/
theorem readable_of_ofText {path text : String} {ob : Object} (h : ofText path text = .ok ob) :
    ∀ s ∈ ob.symbols, s.Readable := by
  unfold ofText at h
  split at h
  · obtain ⟨⟨entries, imports⟩, hentries, h⟩ := bind_eq_ok.mp h
    obtain ⟨symbols, hsymbols, ⟨⟩⟩ := bind_pure_eq_ok.mp h
    intro s hs
    obtain ⟨e, he, hread⟩ := exists_of_mapM_ok hsymbols s hs
    obtain ⟨spelling, hspelling, hkind⟩ := gives_object _ _ _ (mapError_eq_ok.mp hentries) e he
    obtain ⟨body, patches, hbody, hpatches, hkind', -, -, hrelocations, hcontained⟩ :=
      symbol_ok (mapError_eq_ok.mp hread)
    refine ⟨⟨spelling, hspelling, hkind'.trans hkind⟩, ?_, hcontained⟩
    rw [hrelocations]
    refine forall_mem_append.mpr ⟨fun r hr => (patches_of_contents hbody r hr).1, fun r hr => ?_⟩
    obtain ⟨entry, -, hentry⟩ := exists_of_mapM_ok hpatches r hr
    exact isDeferred_of_relocation hentry
  · cases h

theorem kind_ne_dynamicImport : ∀ s ∈ kindSpellings, s.2 ≠ .dynamicImport := by decide

/-- **Kinds of symbols.** An object file defines no symbol that a shared library provides. -/
theorem kind_of_ofText {path text : String} {ob : Object} (h : ofText path text = .ok ob) :
    ∀ s ∈ ob.symbols, s.kind ≠ .dynamicImport := by
  intro s hs
  obtain ⟨spelling, hspelling, hkind⟩ := (readable_of_ofText h s hs).kind
  rw [hkind]
  exact kind_ne_dynamicImport spelling hspelling

end Object

end ArmLink
