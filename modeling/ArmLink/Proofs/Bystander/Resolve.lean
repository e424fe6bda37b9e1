import ArmLink.Proofs.Bystander.Layout
import ArmLink.Proofs.Resolve

/-!
# Relocations besides a bystander

What a relocation amounts to depends on its owner, its target and what contains the target. A
bystander is none of them, so relocations amount to the same. Its own ones are not applied.
-/

namespace ArmLink

open SymbolTable Layout Resolve List

/-- What a relocation amounts to, with another position for its target. -/
def Resolved.rename (f : SymbolId → SymbolId) : Resolved → Resolved
  | value v => .value v
  | deferred kind target addend => .deferred kind (f target) addend

/-- The relocation, with other positions for its owner and its target. -/
@[simps] def HostRelocation.rename (f : SymbolId → SymbolId) (r : HostRelocation) :
    HostRelocation :=
  { r with owner := f r.owner, target := f r.target }

@[simps] def Resolve.Context.rename (f : SymbolId → SymbolId) (c : Context) : Context :=
  { c with layout := c.layout.rename f }

namespace Bystander

variable {b : Bystander} {t : SymbolTable}

/-! ## Values -/

theorem alike_restate (h : b.Suits t) (owner : Nat) (kind : Relocation.Kind) (target : Nat)
    (addend : Word64) (size : Nat) (site : Site) :
    Alike (· = ·) (fun x y => y = x.map (·.rename b.shift))
      (restate t owner kind target addend size site)
      (restate (b.insert t) (b.shift owner) kind (b.shift target) addend size site) := by
  simp only [restate, get_insert, outermost_insert h, Symbol.rename_kind, Symbol.rename_sectionId,
    Symbol.text_rename]
  split
  · exact .ok rfl
  · cases kind with
    | absolute | tls | call =>
      dsimp only
      split
      · exact .error rfl
      · exact .ok rfl
    | pcRelative =>
      dsimp only
      split
      · exact .ok rfl
      · split
        · exact .error rfl
        · exact .ok rfl
    | size | sectionIndex => exact .ok rfl
    | _ => exact .error rfl

theorem valueOf_insert (h : b.Suits t) (c : Context) (owner : Nat) (r : Relocation SymbolId)
    (kind : Relocation.Kind) (target : Nat) (addend : Word64) (site : Site) :
    valueOf (c.rename b.shift) (b.insert t) (b.shift owner) (r.map b.shift) kind (b.shift target)
      addend site = valueOf c t owner r kind target addend site := by
  simp only [valueOf, get_insert, outermost_insert h, Symbol.rename_value, Symbol.rename_size,
    Symbol.rename_sectionId, Symbol.text_rename, Context.rename_layout, Context.rename_got,
    getSection_rename, Section.rename_elfIndex]
  rfl

theorem alike_checked (f : SymbolId → SymbolId) (x : Except ResolveError Word64)
    (check : Word64 → Except FitError Unit) (site : Site) :
    let checked : Except ResolveError Resolved := do
      let value ← x
      match check value with
      | .ok () => return .value value
      | .error reason => .error (.fit site reason)
    Alike (· = ·) (fun x y => y = x.rename f) checked checked := by
  refine (Alike.refl x).bind ?_
  rintro value _ rfl
  cases check value with
  | ok _ => exact .ok rfl
  | error reason => exact .error rfl

/-- **Resolve.** A relocation amounts to the same. -/
theorem alike_resolve (h : b.Suits t) (c : Context) (owner : Nat) (r : Relocation SymbolId) :
    Alike (· = ·) (fun x y => y = x.rename b.shift) (resolve c t owner r)
      (resolve (c.rename b.shift) (b.insert t) (b.shift owner) (r.map b.shift)) := by
  have hstop : (r.map b.shift).stop = r.stop := rfl
  have hoffset : (r.map b.shift).offset = r.offset := rfl
  have hsize : (r.map b.shift).size = r.size := rfl
  have houtcome : (r.map b.shift).outcome = r.outcome.map b.shift := rfl
  simp only [resolve, get_insert, hstop, hoffset, hsize, houtcome, Symbol.rename_size,
    Symbol.text_rename]
  split
  · exact .error rfl
  · cases r.outcome with
    | constant value => exact .ok rfl
    | deferred kind target addend => exact .ok rfl
    | pending kind target addend =>
      cases target with
      | none => exact .ok rfl
      | some target =>
        simp only [Relocation.Outcome.map, Option.map_some, get_insert, Symbol.text_rename,
          Symbol.isDefined_rename, Symbol.rename_reachable, Symbol.rename_kind,
          Context.rename_external]
        split
        · exact .error rfl
        · split
          · exact .error rfl
          · have hvalue := alike_checked b.shift
              (valueOf c t owner r kind target addend
                ⟨kind, (t.get target).text, (t.get owner).text, r.offset⟩) (checkFit kind r.size)
              ⟨kind, (t.get target).text, (t.get owner).text, r.offset⟩
            simp only [valueOf_insert h]
            split
            · refine (alike_restate h owner kind target addend r.size _).bind ?_
              rintro restated _ rfl
              cases restated with
              | some resolved => exact .ok rfl
              | none => exact hvalue
            · split
              · exact .error rfl
              · split
                · exact .error rfl
                · exact hvalue

/-! ## Application -/

theorem alike_record (f : SymbolId → SymbolId) (owner : SymbolId) (text : String)
    (r : Relocation SymbolId) (resolved : Resolved) :
    Alike (· = ·) (fun x y => y = (x.1, x.2.1.map f, x.2.2.map (·.rename f)))
      (record owner text r resolved) (record (f owner) text (r.map f) (resolved.rename f)) := by
  cases resolved with
  | value v => exact .ok rfl
  | deferred kind target addend =>
    have hsize : (r.map f).size = r.size := rfl
    simp only [record, Resolved.rename, hsize]
    cases Arm.Machine.hostType kind r.size (addend.setWidth 32) with
    | ok type => exact .ok rfl
    | error reason => exact .error rfl

theorem patchSymbol_rename (f : SymbolId → SymbolId) {index : Nat} {r : Relocation SymbolId}
    {v : Word64} {outcome : Relocation.Outcome SymbolId} {s : Symbol} :
    patchSymbol index (r.map f) v (outcome.map f) (s.rename f) =
      (patchSymbol index r v outcome s).rename f := by
  simp only [patchSymbol, Symbol.rename, map_set]
  rfl

theorem alike_applyAt (h : b.Suits t) (c : Context) (owner index : Nat) : Alike (· = ·)
      (fun x y => y = (b.insert x.1, x.2.map (·.rename b.shift)) ∧ b.Suits x.1)
      (applyAt c owner t index)
      (applyAt (c.rename b.shift) (b.shift owner) (b.insert t) index) := by
  simp only [applyAt, get_insert, Symbol.rename_relocations, getElem?_map]
  cases (t.get owner).relocations[index]? with
  | none => exact .ok ⟨rfl, h⟩
  | some r =>
    refine (alike_resolve h c owner r).bind ?_
    rintro resolved _ rfl
    refine (alike_record b.shift owner _ r resolved).bind ?_
    rintro ⟨v, outcome, host⟩ _ rfl
    refine .ok ⟨Prod.ext ?_ rfl, h.keeps (.modify rfl)⟩
    exact modify_insert (patchSymbol_rename ..)

/-- What applied relocations leave: a table, and what is left to a host linker. -/
def Settles (b : Bystander) (x y : SymbolTable × List HostRelocation) : Prop :=
  y = (b.insert x.1, x.2.map (·.rename b.shift)) ∧ b.Suits x.1

theorem alike_applyAll (c : Context) (owner : Nat) (indices : List Nat) (h : b.Suits t) :
    Alike SameError b.Settles (applyAll c owner indices t)
      (applyAll (c.rename b.shift) (b.shift owner) indices (b.insert t)) := by
  induction indices generalizing t with
  | nil => exact .ok ⟨rfl, h⟩
  | cons index indices ih =>
    refine ((alike_applyAt h c owner index).mapError fun _ _ he => he.symm).bind ?_
    rintro ⟨t, host⟩ _ ⟨rfl, ht⟩
    refine (ih ht).bind ?_
    rintro ⟨t, hosts⟩ _ ⟨rfl, ht⟩
    refine .ok ⟨Prod.ext rfl ?_, ht⟩
    cases host <;> simp

theorem alike_applySymbols (c : Context) {ids ids' : List SymbolId} (hids : Spliced b ids ids')
    (h : b.Suits t) : Alike SameError b.Settles
      (applySymbols c ids t) (applySymbols (c.rename b.shift) ids' (b.insert t)) := by
  induction hids generalizing t with
  | nil => exact .ok ⟨rfl, h⟩
  | @here ids ids' _ ih =>
    have hrest := ih h
    simp only [applySymbols, reachable_position, Bool.false_and, Bool.false_eq_true, if_false,
      pure_bind, nil_append]
    generalize applySymbols c ids t = result at hrest ⊢
    generalize applySymbols (c.rename b.shift) ids' (b.insert t) = result' at hrest ⊢
    cases hrest with
    | error he => exact .error he
    | ok hresult => exact .ok hresult
  | cons id _ ih =>
    simp only [applySymbols, get_insert, Symbol.rename_reachable, Symbol.rename_kind,
      Symbol.rename_relocations, length_map]
    split
    · refine (alike_applyAll c id _ h).bind ?_
      rintro ⟨t, hosts⟩ _ ⟨rfl, ht⟩
      refine (ih ht).bind ?_
      rintro ⟨t, more⟩ _ ⟨rfl, ht⟩
      exact .ok ⟨Prod.ext rfl map_append.symm, ht⟩
    · refine (ih h).bind ?_
      rintro ⟨t, more⟩ _ ⟨rfl, ht⟩
      exact .ok ⟨rfl, ht⟩

theorem gotAddress_insert (h : Elf.SectionName.got ≠ b.symbol.name) (t : SymbolTable) :
    gotAddress (b.insert t) = gotAddress t := by
  rw [gotAddress, find?_insert h, gotAddress]
  cases t.find? Elf.SectionName.got 0 with
  | none => rfl
  | some id =>
    simp only [Option.map_some, Option.bind_some, get_insert]
    rfl

/-- **Apply.** The same bytes are written, and the same is left to a host linker. -/
theorem alike_apply (h : b.Suits t) (hname : Elf.SectionName.got ≠ b.symbol.name) (l : Layout)
    (external : Bool) : Alike SameError b.Settles
      (apply t l external) (apply (b.insert t) (l.rename b.shift) external) := by
  rw [apply, apply, gotAddress_insert hname]
  exact alike_applySymbols ⟨l, external, gotAddress t⟩ (spliced_ids h.le) h

end Bystander

end ArmLink
