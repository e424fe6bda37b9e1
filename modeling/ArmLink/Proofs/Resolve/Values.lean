import ArmLink.Proofs.Resolve

/-!
# Values without a host linker

If no host linker finishes the link, every relocation with a target amounts to a value, which is
computed from the addresses of its owner and of its target.
-/

namespace ArmLink.Resolve

open SymbolTable List
open Relocation (Kind)

variable {c : Context} {t : SymbolTable} {owner target : SymbolId} {r : Relocation SymbolId}
  {addend : Word64} {x : Settlement} {kind : Kind}

variable (hinternal : c.external = false)
include hinternal

section Kinds

variable (hr : r.outcome = .pending kind (some target) addend) (h : settle c t owner r = .ok x)
include hr h

/-- Nothing is left to a host linker: a relocation with a target becomes a value that fits. -/
theorem constant_of_settle : ∃ v, x = (v, .constant v, none) ∧
      valueOf c t owner r kind target addend (siteOf t owner r kind target) = .ok v ∧
      checkFit kind r.size v = .ok () := by
  obtain ⟨resolved, hresolve, hrecord⟩ := bind_eq_ok.mp h
  rcases resolve_pending hr hresolve with ⟨hexternal, -⟩ | ⟨v, rfl, hchecked⟩
  · rw [hinternal] at hexternal
    cases hexternal
  · cases hrecord
    exact ⟨v, rfl, hchecked⟩

theorem valueOf_of_settle :
    valueOf c t owner r kind target addend (siteOf t owner r kind target) = .ok x.1 := by
  obtain ⟨v, rfl, hv, -⟩ := constant_of_settle hinternal hr h
  exact hv

theorem base_of_settle : ∃ base, (t.get owner).value = some base := by
  have hv := valueOf_of_settle hinternal hr h
  cases hbase : (t.get owner).value with
  | none =>
    simp only [valueOf, hbase] at hv
    cases hv
  | some base => exact ⟨base, rfl⟩

theorem checkFit_of_settle : checkFit kind r.size x.1 = .ok () := by
  obtain ⟨v, rfl, -, hfits⟩ := constant_of_settle hinternal hr h
  exact hfits

end Kinds

theorem value_of_settle (hr : r.outcome = .pending .absolute (some target) addend)
    (h : settle c t owner r = .ok x) :
    ∃ address, (t.get target).value = some address ∧ x.1 = .ofNat 64 address + addend := by
  have hv := valueOf_of_settle hinternal hr h
  simp only [valueOf] at hv
  split at hv
  · cases hv
  · obtain ⟨address, haddress, hv⟩ := bind_eq_ok.mp hv
    split at haddress
    · rename_i value hvalue
      cases haddress
      exact ⟨value, hvalue, (Except.ok.inj hv).symm⟩
    · cases haddress

/-- A distance counts from behind the patched bytes. -/
theorem value_of_settle_pcRelative (hr : r.outcome = .pending .pcRelative (some target) addend)
    (h : settle c t owner r = .ok x) :
    ∃ base address, (t.get owner).value = some base ∧ (t.get target).value = some address ∧
      x.1 = .ofNat 64 address + addend - (.ofNat 64 (base + r.offset) + .ofNat 64 r.size) := by
  have hv := valueOf_of_settle hinternal hr h
  simp only [valueOf] at hv
  split at hv
  · cases hv
  · rename_i base hbase
    obtain ⟨address, haddress, hv⟩ := bind_eq_ok.mp hv
    split at haddress
    · rename_i value hvalue
      cases haddress
      exact ⟨base, value, hbase, hvalue, (Except.ok.inj hv).symm⟩
    · cases haddress

omit hinternal

/-- The kinds whose values the architecture defines. -/
def machineKinds : List Kind := [.call, .plt0, .plt1, .plt2, .gotOffset]

theorem valueOf_machine {base address : Nat} (hkind : kind ∈ machineKinds) (site : Site)
    (howner : (t.get owner).value = some base) (htarget : (t.get target).value = some address) :
    valueOf c t owner r kind target addend site =
      match Arm.Machine.resolve? kind ⟨.ofNat 64 address, addend, .ofNat 64 (base + r.offset),
        c.got.map (.ofNat 64)⟩ with
      | .error reason => .error (.machine site reason)
      | .ok (some value) => .ok value
      | .ok none => .error (.unknownKind kind) := by
  simp only [machineKinds, mem_cons, not_mem_nil, or_false] at hkind
  rcases hkind with rfl | rfl | rfl | rfl | rfl <;> simp only [valueOf, howner, htarget] <;> rfl

theorem machine_of_settle (hkind : kind ∈ machineKinds) (hinternal : c.external = false)
    (hr : r.outcome = .pending kind (some target) addend) (h : settle c t owner r = .ok x) :
    ∃ base address, (t.get owner).value = some base ∧ (t.get target).value = some address ∧
      Arm.Machine.resolve? kind ⟨.ofNat 64 address, addend, .ofNat 64 (base + r.offset),
        c.got.map (.ofNat 64)⟩ = .ok (some x.1) := by
  have hv := valueOf_of_settle hinternal hr h
  cases hbase : (t.get owner).value with
  | none =>
    simp only [valueOf, hbase] at hv
    cases hv
  | some base =>
    cases haddress : (t.get target).value with
    | none =>
      simp only [machineKinds, mem_cons, not_mem_nil, or_false] at hkind
      rcases hkind with rfl | rfl | rfl | rfl | rfl <;>
        simp only [valueOf, hbase, haddress] at hv <;> cases hv
    | some address =>
      refine ⟨base, address, rfl, rfl, ?_⟩
      rw [valueOf_machine hkind _ hbase haddress] at hv
      split at hv
      · cases hv
      · rename_i value hvalue
        cases hv
        exact hvalue
      · cases hv

theorem value_of_settle_constant {v : Word64} (hr : r.outcome = .constant v)
    (h : settle c t owner r = .ok x) : x.1 = v := by
  obtain ⟨resolved, hresolve, hrecord⟩ := bind_eq_ok.mp h
  simp only [resolve, hr] at hresolve
  split at hresolve
  · cases hresolve
  · cases hresolve
    cases hrecord
    rfl

end ArmLink.Resolve
