import ArmLink.Proofs.Resolve

/-!
# Relocations that are refused

A relocation can be refused before its value is asked for, because of its owner or its target alone.
Which of the reasons it is says something about the owner or the target.
-/

namespace ArmLink.Resolve

open SymbolTable
open Relocation (Kind)

variable {c : Context} {t : SymbolTable} {owner target : SymbolId} {r : Relocation SymbolId}
  {kind : Kind} {addend : Word64} {site : Site} {e : ResolveError}

/-- Whether a relocation is refused before its value is asked for. -/
def isEarly : ResolveError → Bool
  | .outOfBounds .. | .undefined _ | .unreachable _ | .importWithoutLoader _
  | .hostObjectWithoutHost _ => true
  | _ => false

theorem isEarly_of_valueOf (h : valueOf c t owner r kind target addend site = .error e) :
    isEarly e = false := by
  cases hbase : (t.get owner).value with
  | none =>
    simp only [valueOf, hbase] at h
    cases h
    rfl
  | some base =>
    cases haddress : (t.get target).value with
    | none =>
      cases kind <;> simp only [valueOf, hbase, haddress] at h <;> (try split at h) <;>
        cases h <;> rfl
    | some address =>
      simp only [valueOf, hbase, haddress] at h
      split at h
      any_goals cases h
      · split at h <;> cases h
      · rfl
      · rcases bind_eq_error.mp h with h | ⟨value, -, h⟩
        · cases h
        · split at h <;> cases h <;> rfl

theorem isEarly_of_restate {size : Nat}
    (h : restate t owner kind target addend size site = .error e) : isEarly e = false := by
  simp only [restate] at h
  split at h
  · cases h
  · split at h
    · split at h <;> cases h
      rfl
    · split at h <;> cases h
      rfl
    · split at h
      · cases h
      · split at h <;> cases h
        rfl
    · split at h <;> cases h
      rfl
    · cases h
    · cases h
    · cases h
      rfl

theorem isEarly_of_record {text : String} {resolved : Resolved}
    (h : record owner text r resolved = .error e) : isEarly e = false := by
  cases resolved with
  | value v => cases h
  | deferred kind target addend =>
    simp only [record] at h
    split at h <;> cases h
    rfl

/-- Why a relocation of a symbol is refused before its value is asked for. -/
inductive Refused (c : Context) (t : SymbolTable) (owner : SymbolId) (r : Relocation SymbolId) :
    ResolveError → Prop
  | outOfBounds (h : (t.get owner).size < r.stop) :
      Refused c t owner r
        (.outOfBounds (t.get owner).text r.offset r.size (t.get owner).size)
  | undefined {kind : Kind} {target : SymbolId} {addend : Word64}
      (hr : r.outcome = .pending kind (some target) addend)
      (h : (t.get target).isDefined = false) :
      Refused c t owner r (.undefined (siteOf t owner r kind target))
  | unreachable {kind : Kind} {target : SymbolId} {addend : Word64}
      (hr : r.outcome = .pending kind (some target) addend)
      (h : (t.get target).reachable = false) :
      Refused c t owner r (.unreachable (siteOf t owner r kind target))
  | importWithoutLoader {kind : Kind} {target : SymbolId} {addend : Word64}
      (hr : r.outcome = .pending kind (some target) addend) (hinternal : c.external = false)
      (h : (t.get target).isImport = true) :
      Refused c t owner r (.importWithoutLoader (siteOf t owner r kind target))
  | hostObjectWithoutHost {kind : Kind} {target : SymbolId} {addend : Word64}
      (hr : r.outcome = .pending kind (some target) addend) (hinternal : c.external = false)
      (h : (t.get target).kind = .hostObject) :
      Refused c t owner r (.hostObjectWithoutHost (t.get target).text)

theorem isEarly_of_checked {size : Nat} (h : (do
      let value ← valueOf c t owner r kind target addend site
      match checkFit kind size value with
      | .ok () => return Resolved.value value
      | .error reason => .error (.fit site reason)) = .error e) : isEarly e = false := by
  rcases bind_eq_error.mp h with h | ⟨value, -, h⟩
  · exact isEarly_of_valueOf h
  · split at h <;> cases h
    rfl

theorem refused_of_resolve (h : resolve c t owner r = .error e) (he : isEarly e = true) :
    Refused c t owner r e := by
  simp only [resolve] at h
  split at h
  · rename_i hsize
    cases h
    exact .outOfBounds hsize
  split at h
  · cases h
  · cases h
  · cases h
  rename_i kind target addend hr
  split at h
  · rename_i hdefined
    cases h
    exact .undefined hr (Bool.not_eq_true' _ ▸ hdefined)
  split at h
  · rename_i hreach
    cases h
    exact .unreachable hr (Bool.not_eq_true' _ ▸ hreach)
  split at h
  · rcases bind_eq_error.mp h with h | ⟨restated, -, h⟩
    · cases (isEarly_of_restate h).symm.trans he
    · cases restated with
      | some resolved => cases h
      | none => cases (isEarly_of_checked h).symm.trans he
  rename_i hexternal
  have hinternal : c.external = false := Bool.eq_false_iff.mpr hexternal
  split at h
  · rename_i hkind
    cases h
    exact .importWithoutLoader hr hinternal (decide_eq_true hkind)
  split at h
  · rename_i hkind
    cases h
    exact .hostObjectWithoutHost hr hinternal hkind
  · cases (isEarly_of_checked h).symm.trans he

/-- **Refusal.** A relocation is refused before its value is asked for because of its owner or its
target. -/
theorem refused_of_settle (h : settle c t owner r = .error e) (he : isEarly e = true) :
    Refused c t owner r e := by
  rcases bind_eq_error.mp h with h | ⟨resolved, -, h⟩
  · exact refused_of_resolve h he
  · cases (isEarly_of_record h).symm.trans he

end ArmLink.Resolve
