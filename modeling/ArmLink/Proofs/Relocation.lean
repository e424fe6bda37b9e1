import ArmLink.Relocation
import Mathlib.Algebra.Group.Nat.Defs

/-!
# Relocations and their targets

Targets are names in object files and positions in tables. Binding the ones to the others changes
nothing else about relocations.
-/

namespace ArmLink

/-! ## Sums and differences in 64 bits -/

namespace Word64

variable {m n : Nat}

theorem ofNat_wrap (n : Nat) : BitVec.ofNat 64 (wrap n) = BitVec.ofNat 64 n :=
  BitVec.ofNat_toNat ..

theorem wrap_add (m n : Nat) : wrap (wrap m + n) = wrap (m + n) := Nat.mod_add_mod m _ n

theorem minus_le (h : n ≤ m) : minus m n ≤ m := by
  rw [minus, BitVec.toNat_sub, BitVec.toNat_ofNat, BitVec.toNat_ofNat]
  omega

/-- A signed difference of 64 bits is the difference up to a multiple of their range. -/
theorem exists_toInt_sub (m n : Nat) : ∃ k : Int, (BitVec.ofNat 64 m - BitVec.ofNat 64 n).toInt =
      m - n + 18446744073709551616 * k := by
  refine ⟨-((m : Int) - n).bdiv (2 ^ 64), ?_⟩
  rw [BitVec.toInt_sub, BitVec.toInt_ofNat', BitVec.toInt_ofNat', Int.bmod_sub_bmod,
    Int.sub_bmod_bmod, Int.bmod_eq_self_sub_mul_bdiv]
  omega

end Word64

namespace Relocation

open List

variable {τ υ φ : Type}

/-! ## Renamed targets -/

theorem map_map (f : τ → υ) (g : υ → φ) (r : Relocation τ) : (r.map f).map g = r.map (g ∘ f) := by
  obtain ⟨offset, size, outcome⟩ := r
  cases outcome with
  | pending kind target addend =>
    cases target with
    | none => rfl
    | some name => rfl
  | constant value => rfl
  | deferred kind target addend => rfl

theorem map_self (r : Relocation τ) : r.map (fun target => target) = r := by
  obtain ⟨offset, size, outcome⟩ := r
  cases outcome with
  | pending kind target addend =>
    cases target with
    | none => rfl
    | some target => rfl
  | constant value => rfl
  | deferred kind target addend => rfl

variable {r : Relocation τ} {f : τ → Option υ} {rs : List (Relocation τ)}
  {rs' : List (Relocation υ)}

theorem map_congr {f g : τ → υ}
    (h : ∀ name, r.target? = some name → f name = g name) : r.map f = r.map g := by
  obtain ⟨offset, size, outcome⟩ := r
  cases outcome with
  | pending kind target addend =>
    cases target with
    | none => rfl
    | some name => simp only [map, Outcome.map, Option.map_some, h name rfl]
  | constant value => rfl
  | deferred kind target addend => simp only [map, Outcome.map, h target rfl]

theorem target?_map (f : τ → υ) (r : Relocation τ) : (r.map f).target? = r.target?.map f := by
  obtain ⟨offset, size, outcome⟩ := r
  cases outcome <;> rfl

/-- The relocation leads nowhere, or to something with the property. -/
def LeadsTo (P : τ → Prop) (r : Relocation τ) : Prop := ∀ target, r.target? = some target → P target

theorem found_of_map_eq (hrs : rs.map (·.map f) = rs'.map (·.map some)) (hr : r ∈ rs) {name : τ}
    (hname : r.target? = some name) : ∃ id, f name = some id := by
  have hmem : r.map f ∈ rs'.map (·.map some) := hrs ▸ mem_map_of_mem hr
  obtain ⟨r', -, hr'⟩ := mem_map.mp hmem
  have htarget : some (f name) = r'.target?.map some := by
    rw [← target?_map, hr', target?_map, hname, Option.map_some]
  obtain ⟨id, -, hid⟩ := Option.map_eq_some_iff.mp htarget.symm
  exact ⟨id, hid.symm⟩

/-- Targets that were found are found by whatever finds as much. -/
theorem map_eq_of_finds {f g : τ → Option υ} (h : ∀ name id, f name = some id → g name = some id)
    (hrs : rs.map (·.map f) = rs'.map (·.map some)) : rs.map (·.map g) = rs'.map (·.map some) := by
  refine Eq.trans (map_congr_left fun r hr => map_congr fun name hname => ?_) hrs
  obtain ⟨id, hid⟩ := found_of_map_eq hrs hr hname
  rw [h name id hid, hid]

theorem exists_of_map_eq
    (hrs : rs.map (·.map f) = rs'.map (·.map some)) {r : Relocation υ} (hr : r ∈ rs') {target : υ}
    (htarget : r.target? = some target) : ∃ name, f name = some target := by
  have hmem : r.map some ∈ rs.map (·.map f) := hrs ▸ mem_map_of_mem hr
  obtain ⟨named, -, hnamed⟩ := mem_map.mp hmem
  have hfound := congrArg Relocation.target? hnamed
  rw [target?_map, target?_map, htarget, Option.map_some] at hfound
  obtain ⟨name, -, hfind⟩ := Option.map_eq_some_iff.mp hfound
  exact ⟨name, hfind⟩

/-! ## What is left to the host linker -/

/-- Whether the relocation is left to the host linker already. -/
def isDeferred (r : Relocation τ) : Bool :=
  match r.outcome with
  | .deferred .. => true
  | _ => false

end Relocation

end ArmLink
