import ArmLink.Proofs.Layout.Segments
import ArmLink.Proofs.Resolve

/-!
# Values that do not depend on addresses

If a host linker finishes the link, it gives the sections addresses of its own, and those that the
layout gave them are discarded. So what is written into the bytes of an output for a host linker
must not depend on where the sections were.

A relocation against a constant is steady only if no place goes into it: the distance from a place
to a constant depends on the place, but it is not left to the host linker
(`resolve_moved_constant`).
-/

namespace ArmLink.Resolve

open SymbolTable Layout List BitVec
open Relocation (Kind Outcome)

variable {l l' : Layout} {t t' t₂ : SymbolTable} {owner target id : SymbolId}
  {r : Relocation SymbolId} {kind : Kind} {addend v : Word64} {site : Site} {value : Nat}
  {got : Option Nat}

/-! ## Two layouts -/

/-- A section without its address. -/
def unaddressed (s : Section) : Section := { s with address := 0 }

/-- A symbol without its address. -/
def unvalued (s : Symbol) : Symbol := { s with value := none }

/-- The address from which the symbols of a section are counted; without a section, zero. -/
def originOf (l : Layout) : Option SectionId → Nat
  | some id => (l.getSection id).origin
  | none => 0

/-- The offset of a symbol in its section, if it has an address. -/
def sectionOffset? (l : Layout) (s : Symbol) : Option Int :=
  s.value.map fun value : Nat => (value : Int) - originOf l s.sectionId

/-- From `l` to `l'` the sections have moved, and the symbols with them. -/
structure Moved (l l' : Layout) (t t' : SymbolTable) : Prop where
  sections : l'.sections.map unaddressed = l.sections.map unaddressed
  symbols : Keeps unvalued t t'
  offsets : ∀ id, sectionOffset? l' (t'.get id) = sectionOffset? l (t.get id)

namespace Moved

variable (h : Moved l l' t t')
include h

theorem sectionId_eq (id : SymbolId) : (t'.get id).sectionId = (t.get id).sectionId :=
  (h.symbols.map Symbol.sectionId).2 id

theorem elfIndex_eq (id : SectionId) :
    (l'.getSection id).elfIndex = (l.getSection id).elfIndex := by
  have hget (l : Layout) : (l.getSection id).elfIndex =
      ((l.sections.map unaddressed).getD id default).elfIndex := by
    simp only [getSection, getD_eq_getElem?_getD, getElem?_map]
    cases l.sections[id]? <;> rfl
  rw [hget, hget, h.sections]

theorem exists_value (hvalue : (t.get id).value = some value) :
    ∃ value' : Nat, (t'.get id).value = some value' ∧
      (value' : Int) - originOf l' (t.get id).sectionId =
        (value : Int) - originOf l (t.get id).sectionId := by
  have hoffset := h.offsets id
  simp only [sectionOffset?, hvalue, h.sectionId_eq] at hoffset
  cases hvalue' : (t'.get id).value with
  | none => simp [hvalue'] at hoffset
  | some value' =>
    simp only [hvalue', Option.map_some, Option.some.injEq] at hoffset
    exact ⟨value', rfl, hoffset⟩

theorem value_eq (hsection : (t.get id).sectionId = none) (hvalue : (t.get id).value = some value) :
    (t'.get id).value = some value := by
  obtain ⟨value', hvalue', heq⟩ := h.exists_value hvalue
  simp only [hsection, originOf] at heq
  obtain rfl : value' = value := by omega
  exact hvalue'

omit h

end Moved

theorem moved_iff : Moved l l' t t' ↔ l'.sections.map unaddressed = l.sections.map unaddressed ∧
    t'.size = t.size ∧ ∀ id < t.size, unvalued (t'.get id) = unvalued (t.get id) ∧
      sectionOffset? l' (t'.get id) = sectionOffset? l (t.get id) := by
  refine ⟨fun h => ⟨h.sections, h.symbols.1, fun id _ => ⟨h.symbols.2 id, h.offsets id⟩⟩, ?_⟩
  rintro ⟨hsections, hsize, h⟩
  have hall (id : SymbolId) : unvalued (t'.get id) = unvalued (t.get id) ∧
      sectionOffset? l' (t'.get id) = sectionOffset? l (t.get id) := by
    by_cases hlt : id < t.size
    · exact h id hlt
    · have hle := Nat.le_of_not_lt hlt
      rw [get_of_size_le hle, get_of_size_le (hsize ▸ hle)]
      exact ⟨rfl, rfl⟩
  exact ⟨hsections, ⟨hsize, fun id => (hall id).1⟩, fun id => (hall id).2⟩

instance : Decidable (Moved l l' t t') := decidable_of_iff' _ moved_iff

/-! ## What is not left to the host linker -/

/-- No address goes into the value of the relocation, should it not be left to the host linker: a
constant is not part of a section and is wanted for itself, and a place to which the distance is
wanted lies in the section of the outermost symbol around it. -/
def Steady (t : SymbolTable) : Outcome SymbolId → Prop
  | .pending kind (some target) _ =>
    if (t.get target).kind = .constant then
      kind ∈ [.size, .sectionIndex] ∨ kind ∈ [.absolute, .tls] ∧ (t.get target).sectionId = none
    else kind = .pcRelative →
      (t.get target).sectionId = (t.get (t.outermost target).1).sectionId
  | _ => True

instance (t : SymbolTable) : DecidablePred (Steady t)
  | .pending _ (some _) _ => inferInstanceAs (Decidable (ite _ _ _))
  | .pending _ none _ | .constant _ | .deferred .. => inferInstanceAs (Decidable True)

/-- A relocation is not left to the host linker if its target is a constant, if no address is
wanted, or if a distance within one section is. -/
theorem restate_none {size : Nat} (h : restate t owner kind target addend size site = .ok none) :
    (t.get target).kind = .constant ∨ kind ∈ [.size, .sectionIndex] ∨
      kind = .pcRelative ∧ (t.get (t.outermost target).1).sectionId = (t.get owner).sectionId := by
  have hdefer {p : Prop} [Decidable p] {reason : ResolveError} {resolved : Resolved}
      (h : (if p then .error reason else .ok (some resolved) : Except ResolveError _) = .ok none) :
      False := by
    split at h <;> cases h
  unfold restate at h
  split at h
  · exact .inl ‹_›
  · cases kind with
    | absolute => exact (hdefer h).elim
    | tls => exact (hdefer h).elim
    | call => exact (hdefer h).elim
    | size => simp
    | sectionIndex => simp
    | pcRelative =>
      dsimp only at h
      split at h
      · rename_i hsame
        exact .inr (.inr ⟨rfl, hsame.2⟩)
      · exact (hdefer h).elim
    | _ => cases h

/-- A distance does not change if both of its ends move alike. -/
theorem distance_of_moved {value' place place' : Nat} (addend size : Word64)
    (h : (value' : Int) - place' = value - place) :
    BitVec.ofNat 64 value' + addend - (BitVec.ofNat 64 place' + size) =
      BitVec.ofNat 64 value + addend - (BitVec.ofNat 64 place + size) := by
  have hdistance : BitVec.ofNat 64 value' - BitVec.ofNat 64 place' =
      BitVec.ofNat 64 value - BitVec.ofNat 64 place := by
    bv_omega
  have hsplit (a p : Word64) : a + addend - (p + size) = a - p + (addend - size) := by
    simp only [sub_eq_add_neg, neg_add]
    ac_rfl
  rw [hsplit, hsplit, hdistance]

/-- The value of a steady relocation that is not left to the host linker is the same in both
layouts. -/
theorem valueOf_of_moved (hmoved : Moved l l' t t') {got' : Option Nat}
    (hr : r.outcome = .pending kind (some target) addend) (hsteady : Steady t r.outcome)
    (hrestate : restate t owner kind target addend r.size site = .ok none)
    (h : valueOf ⟨l, true, got⟩ t owner r kind target addend site = .ok v) :
    valueOf ⟨l', true, got'⟩ t' owner r kind target addend site = .ok v := by
  rw [hr] at hsteady
  simp only [Steady] at hsteady
  have hrestate := restate_none hrestate
  have hsize : (t'.get target).size = (t.get target).size := (hmoved.symbols.map Symbol.size).2 _
  have houter : t'.outermost target = t.outermost target :=
    (hmoved.symbols.map Symbol.outer).outermost target
  cases hplace : (t.get owner).value with
  | none =>
    simp only [valueOf, hplace] at h
    cases h
  | some place =>
    obtain ⟨place', hplace', hmovedPlace⟩ := hmoved.exists_value hplace
    simp only [valueOf, hplace, hplace', hsize, houter, hmoved.sectionId_eq] at h ⊢
    -- the kinds are those of a constant, of no address at all, or of a distance
    have hkinds : kind ∈ [.size, .sectionIndex] ∨
        kind ∈ [.absolute, .tls] ∧ (t.get target).sectionId = none ∨
        kind = .pcRelative ∧ (t.get target).sectionId = (t.get owner).sectionId := by
      split at hsteady
      · exact hsteady.imp_right .inl
      · rename_i hconstant
        rcases hrestate with hc | hk | ⟨hk, hsame⟩
        · exact absurd hc hconstant
        · exact .inl hk
        · exact .inr (.inr ⟨hk, (hsteady hk).trans hsame⟩)
    rcases hkinds with hk | ⟨hk, hfixed⟩ | ⟨rfl, hsame⟩
    · simp only [mem_cons, not_mem_nil, or_false] at hk
      rcases hk with rfl | rfl
      · exact h
      · simp only [hmoved.elfIndex_eq]
        exact h
    · obtain ⟨address, haddress, h⟩ : ∃ address, (t.get target).value = some address ∧
          (kind = .absolute ∧ .ofNat 64 address + addend = v ∨
            kind = .tls ∧ .ofNat 64 Arm.Machine.tlsBias + addend + .ofNat 64 address = v) := by
        cases hvalue : (t.get target).value with
        | none =>
          simp only [mem_cons, not_mem_nil, or_false] at hk
          rcases hk with rfl | rfl <;> simp only [hvalue] at h <;> cases h
        | some address =>
          simp only [mem_cons, not_mem_nil, or_false] at hk
          refine ⟨address, rfl, ?_⟩
          rcases hk with rfl | rfl
          · simp only [hvalue] at h
            exact .inl ⟨rfl, Except.ok.inj h⟩
          · simp only [hvalue] at h
            exact .inr ⟨rfl, Except.ok.inj h⟩
      have haddress' := hmoved.value_eq hfixed haddress
      rcases h with ⟨rfl, rfl⟩ | ⟨rfl, rfl⟩ <;> simp only [haddress'] <;> rfl
    · cases hvalue : (t.get target).value with
      | none =>
        simp only [hvalue] at h
        cases h
      | some address =>
        obtain ⟨address', haddress', hmovedAddress⟩ := hmoved.exists_value hvalue
        simp only [hvalue] at h
        simp only [haddress']
        cases Except.ok.inj h
        rw [hsame] at hmovedAddress
        refine congrArg Except.ok (distance_of_moved addend (.ofNat 64 r.size) ?_)
        omega

/-! ## One relocation -/

/-- What a steady relocation amounts to is the same in both layouts. -/
theorem resolve_eq_of_moved (hmoved : Moved l l' t t') (got got' : Option Nat)
    (hsteady : Steady t r.outcome) {resolved : Resolved}
    (h : resolve ⟨l, true, got⟩ t owner r = .ok resolved) :
    resolve ⟨l', true, got'⟩ t' owner r = .ok resolved := by
  have hsymbols := hmoved.symbols
  have houter := (hsymbols.read Symbol.outer fun _ => rfl).outermost
  have hkind := (hsymbols.read Symbol.kind fun _ => rfl).2
  have hsize := (hsymbols.read Symbol.size fun _ => rfl).2
  have htext := (hsymbols.read Symbol.text fun _ => rfl).2
  have hdefined := (hsymbols.read Symbol.isDefined fun _ => rfl).2
  have hreach := (hsymbols.read Symbol.reachable fun _ => rfl).2
  have hrestate (kind : Kind) (target : SymbolId) (addend : Word64) (site : Site) :
      restate t' owner kind target addend r.size site =
        restate t owner kind target addend r.size site := by
    simp only [restate, houter, hkind, htext, hmoved.sectionId_eq]
  cases hr : r.outcome with
  | constant value =>
    simp only [resolve, hr, hsize, htext] at h ⊢
    exact h
  | deferred kind target addend =>
    simp only [resolve, hr, hsize, htext] at h ⊢
    exact h
  | pending kind target addend =>
    cases target with
    | none =>
      simp only [resolve, hr, hsize, htext] at h ⊢
      exact h
    | some target =>
      simp only [resolve, hr, hsize, htext, hdefined, hreach, hrestate] at h ⊢
      -- the guards are the same, and what is left is the value
      split at h
      · cases h
      · rename_i hbounds
        rw [if_neg hbounds]
        split at h
        · cases h
        · rename_i hdef
          rw [if_neg hdef]
          split at h
          · cases h
          · rename_i hlive
            rw [if_neg hlive]
            obtain ⟨restated, hrestated, h⟩ := bind_eq_ok.mp h
            refine bind_eq_ok.mpr ⟨restated, hrestated, ?_⟩
            cases restated with
            | some resolved => exact h
            | none =>
              obtain ⟨v, hv, h⟩ := bind_eq_ok.mp h
              exact bind_eq_ok.mpr ⟨v, valueOf_of_moved hmoved hr hsteady hrestated hv, h⟩

/-! ## All relocations -/

/-- All relocations that are applied are steady. -/
def AllSteady (t : SymbolTable) : Prop :=
  ∀ id, isSite (t.get id) = true → ∀ r ∈ (t.get id).relocations, Steady t r.outcome

instance : Decidable (AllSteady t) :=
  decidable_of_iff (∀ id < t.size, isSite (t.get id) = true → _)
    ⟨fun h id hsite => h id (lt_size_of_isSite hsite) hsite, fun h id _ => h id⟩

/-- **Step.** A steady relocation leaves the same behind in both layouts. -/
theorem settle_of_moved (hmoved : Moved l l' t t') (got got' : Option Nat)
    (hsteady : Steady t r.outcome) {x : Settlement}
    (h : settle ⟨l, true, got⟩ t owner r = .ok x) : settle ⟨l', true, got'⟩ t' owner r = .ok x := by
  have htext := (hmoved.symbols.read Symbol.text fun _ => rfl).2 owner
  obtain ⟨resolved, hresolved, hrecord⟩ := bind_eq_ok.mp h
  rw [settle, htext]
  exact bind_eq_ok.mpr ⟨resolved, resolve_eq_of_moved hmoved got got' hsteady hresolved, hrecord⟩

/-- **Run.** If all relocations are steady, they are applied alike in both layouts. -/
theorem apply_of_moved {hosts : List HostRelocation} (hmoved : Moved l l' t t')
    (hsteady : AllSteady t) (h : apply t l true = .ok (t₂, hosts)) :
    ∃ t₂', apply t' l' true = .ok (t₂', hosts) ∧ ∀ id, (t₂'.get id).data = (t₂.get id).data := by
  obtain ⟨-, hbecomes, rfl⟩ := (gives_apply t l true).of_ok h
  have hsite (id : SymbolId) : isSite (t'.get id) = isSite (t.get id) :=
    (hmoved.symbols.map isSite).2 id
  have hrelocations := (hmoved.symbols.read Symbol.relocations fun _ => rfl).2
  have hdata := (hmoved.symbols.read Symbol.data fun _ => rfl).2
  have hsettle : ∀ id, isSite (t.get id) = true → ∀ r ∈ (t.get id).relocations,
      ∃ x, settle ⟨l, true, gotAddress t⟩ t id r = .ok x ∧
        settle ⟨l', true, gotAddress t'⟩ t' id r = .ok x := by
    intro id hid r hr
    have happlied := (hbecomes id).1 hid
    obtain ⟨x, hx, rfl⟩ := mem_map.mp (happlied.relocations.symm ▸ hr)
    exact ⟨x.2, happlied.settled x hx,
      settle_of_moved hmoved _ _ (hsteady id hid _ hr) (happlied.settled x hx)⟩
  have hsame : ∀ id, isSite (t.get id) = true →
      settlements ⟨l', true, gotAddress t'⟩ t' id = settlements ⟨l, true, gotAddress t⟩ t id := by
    intro id hid
    rw [settlements, settlements, hrelocations]
    refine filterMap_congr fun r hr => ?_
    obtain ⟨x, hx, hx'⟩ := hsettle id hid r hr
    rw [hx, hx']
  cases happly : apply t' l' true with
  | error failure =>
    obtain ⟨id, r, hid, hr, herror⟩ := apply_error happly
    obtain ⟨x, -, hx'⟩ := hsettle id (hsite id ▸ hid) r (hrelocations id ▸ hr)
    cases hx'.symm.trans herror
  | ok result =>
    obtain ⟨-, hbecomes', hhosts⟩ := (gives_apply t' l' true).of_ok happly
    refine ⟨result.1, congrArg Except.ok (Prod.ext rfl ?_), fun id => ?_⟩
    · rw [hhosts, hmoved.symbols.ids]
      refine congrArg (flatMap · t.ids) (funext fun id => ?_)
      rw [hostsOf, hostsOf, hsite]
      split
      · rw [hsame id ‹_›]
      · rfl
    · cases hid : isSite (t.get id) with
      | true =>
        rw [((hbecomes id).1 hid).symbol, ((hbecomes' id).1 ((hsite id).trans hid)).symbol,
          hsame id hid, patched, patched, hdata]
      | false => rw [(hbecomes id).2 hid, (hbecomes' id).2 ((hsite id).trans hid), hdata]

/-- **Bytes without addresses.** If a host linker finishes the link, a steady relocation amounts to
the same wherever the sections are; if all that are applied are steady, so do the bytes of the
symbols and what is left to the host linker. -/
theorem resolve_of_moved (hmoved : Moved l l' t t') :
    (∀ got got' owner r resolved, Steady t r.outcome →
      resolve ⟨l, true, got⟩ t owner r = .ok resolved →
      resolve ⟨l', true, got'⟩ t' owner r = .ok resolved) ∧
    (AllSteady t → ∀ t₂ hosts, apply t l true = .ok (t₂, hosts) →
      ∃ t₂', apply t' l' true = .ok (t₂', hosts) ∧ ∀ id, (t₂'.get id).data = (t₂.get id).data) := by
  constructor
  · intro got got' owner r resolved hsteady h
    exact resolve_eq_of_moved hmoved got got' hsteady h
  · intro hsteady t₂ hosts h
    exact apply_of_moved hmoved hsteady h

/-- A word of code that depends on a device at a fixed address, and another one on a place in the
same section. -/
def deviceSample (kind : Kind) : SymbolTable :=
  ⟨SymbolTable.initial.symbols ++ (
    [{ name := "main", version := 0, kind := .text, size := 8,
       relocations := [.pending 0 4 kind (some 21) 0, .pending 4 4 .pcRelative (some 20) 0],
       reachable := true },
     { name := "helper", version := 0, kind := .text, size := 4, reachable := true },
     { name := "device", version := 0, kind := .constant, value := some 20480,
       reachable := true }] : List Symbol)⟩

/-- With and without a fixed base, the sections have different addresses. -/
theorem resolve_of_moved_sample : ∃ l t l' t',
    compute (deviceSample .absolute) false 1 = .ok (l, t) ∧
      compute (deviceSample .absolute) true 1 = .ok (l', t') ∧
      (t.get 19).value = some 68608 ∧ (t'.get 19).value = some 3072 ∧
      Moved l l' t t' ∧ AllSteady t ∧
      ∃ t₂ t₂' hosts, apply t l true = .ok (t₂, hosts) ∧ apply t' l' true = .ok (t₂', hosts) ∧
        (t₂.get 19).data = [0, 80, 0, 0, 0, 0, 0, 0] ∧ (t₂'.get 19).data = (t₂.get 19).data := by
  obtain ⟨l, t, hcompute, l', t', hcompute', t₂, hosts, happly, hrun⟩ :
      ∃ l t, compute (deviceSample .absolute) false 1 = .ok (l, t) ∧
        ∃ l' t', compute (deviceSample .absolute) true 1 = .ok (l', t') ∧
          ∃ t₂ hosts, apply t l true = .ok (t₂, hosts) ∧ decide (Moved l l' t t' ∧ AllSteady t ∧
            (t.get 19).value = some 68608 ∧ (t'.get 19).value = some 3072 ∧
            (t₂.get 19).data = [0, 80, 0, 0, 0, 0, 0, 0]) := by
    decide +kernel
  obtain ⟨hmoved, hsteady, hvalue, hvalue', hdata⟩ := of_decide_eq_true hrun
  obtain ⟨t₂', happly', hsame⟩ := (resolve_of_moved hmoved).2 hsteady t₂ hosts happly
  exact ⟨l, t, l', t', hcompute, hcompute', hvalue, hvalue', hmoved, hsteady, t₂, t₂', hosts,
    happly, happly', hdata, hsame 19⟩

/-- The distance to a constant is not left to the host linker, although it depends on where its
place is. -/
theorem resolve_moved_constant : ∃ l t l' t' v v',
    compute (deviceSample .pcRelative) false 1 = .ok (l, t) ∧
      compute (deviceSample .pcRelative) true 1 = .ok (l', t') ∧ Moved l l' t t' ∧
      resolve ⟨l, true, gotAddress t⟩ t 19 (.pending 0 4 .pcRelative (some 21) 0) =
        .ok (.value v) ∧
      resolve ⟨l', true, gotAddress t'⟩ t' 19 (.pending 0 4 .pcRelative (some 21) 0) =
        .ok (.value v') ∧ v ≠ v' := by
  obtain ⟨l, t, hcompute, l', t', hcompute', hmoved, hresolve, hresolve'⟩ :
      ∃ l t, compute (deviceSample .pcRelative) false 1 = .ok (l, t) ∧
        ∃ l' t', compute (deviceSample .pcRelative) true 1 = .ok (l', t') ∧ Moved l l' t t' ∧
          resolve ⟨l, true, gotAddress t⟩ t 19 (.pending 0 4 .pcRelative (some 21) 0) =
            .ok (.value (-48132)) ∧
          resolve ⟨l', true, gotAddress t'⟩ t' 19 (.pending 0 4 .pcRelative (some 21) 0) =
            .ok (.value 17404) := by
    decide +kernel
  exact ⟨l, t, l', t', -48132, 17404, hcompute, hcompute', hmoved, hresolve, hresolve', by decide⟩

end ArmLink.Resolve
