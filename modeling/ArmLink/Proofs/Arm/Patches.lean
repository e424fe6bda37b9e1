import ArmLink.Proofs.Arm.Guards
import ArmLink.Proofs.Relocation
import ArmLink.Proofs.Span

/-!
# The patches of machine code

Every instruction has at most one patch, which lies within its own words, and the words of a body
follow each other. So its patches follow each other as well, and nothing is decided about them
before addresses are known: none is left to the host linker.
-/

namespace ArmLink

open List

/-- The bytes that a relocation patches. -/
def Relocation.span {τ : Type} (r : Relocation τ) : Span := ⟨r.offset, r.stop⟩

namespace Arm

open ArmLink.Span (Packed)

variable {instructions : List Instruction} {body : Body} {code : Code} {n : Nat}

theorem Patches.fields {w : Word} {k : Nat} {r : Relocation String} (h : Patches w k r) :
    r.offset = 4 * k ∧ r.size = 4 ∧ r.isDeferred = false := by
  cases h <;> exact ⟨rfl, rfl, rfl⟩

theorem Code.Neat.fields (h : code.Neat n) :
    ∀ r ∈ code.relocation, r.size = 4 ∧ r.isDeferred = false ∧ r.stop ≤ code.size := by
  intro r hr
  obtain ⟨k, w, hw, hpatch⟩ := h.patch r hr
  obtain ⟨hoffset, hsize, hdeferred⟩ := hpatch.fields
  obtain ⟨hk, -⟩ := List.getElem?_eq_some_iff.mp hw
  refine ⟨hsize, hdeferred, ?_⟩
  rw [Relocation.stop, hoffset, hsize, Code.size]
  omega

theorem packed_of_emit {labels : Labels} {pc : Nat}
    (h : emit labels (positions instructions pc) = .ok body) :
    Packed pc (pc + body.bytes.length) (body.relocations.map (·.span)) ∧
      ∀ r ∈ body.relocations, r.size = 4 ∧ r.isDeferred = false := by
  induction instructions generalizing pc body with
  | nil =>
    cases h
    exact ⟨.nil (Nat.le_refl _), forall_mem_nil _⟩
  | cons i rest ih =>
    obtain ⟨code, hcode, h⟩ := bind_eq_ok.mp h
    split at h
    · rename_i hsize
      dsimp only at hsize
      obtain ⟨body', hbody, ⟨⟩⟩ := bind_pure_eq_ok.mp h
      obtain ⟨hpacked, hfields⟩ := ih hbody
      have hown := ((neat_encode _ _ _).of_ok (mapError_eq_ok.mp hcode)).fields
      rw [← hsize] at hpacked
      have hfirst : Packed pc (pc + code.size)
          ((code.relocation.map (·.shifted pc)).toList.map (·.span)) := by
        cases hr : code.relocation with
        | none => exact .nil (Nat.le_add_right _ _)
        | some r =>
          have hstop : r.offset + r.size ≤ code.size := (hown r hr).2.2
          exact .cons (Nat.le_add_left _ _) (Nat.le_add_right _ _)
            (.nil (by simp only [Relocation.span, Relocation.stop, Relocation.shifted]; omega))
      constructor
      · rw [map_append, length_append, Code.length_bytes, ← Nat.add_assoc]
        exact hfirst.append hpacked
      · refine forall_mem_append.mpr ⟨fun r hr => ?_, hfields⟩
        obtain ⟨r', hr', rfl⟩ := Option.map_eq_some_iff.mp (Option.mem_toList.mp hr)
        exact ⟨(hown r' hr').1, (hown r' hr').2.1⟩
    · cases h

/-- **Assembled.** The patches of a body follow each other within its bytes, each of them four bytes
long, and none of them is left to the host linker. -/
theorem packed_of_assemble (h : assemble instructions = .ok body) :
    Packed 0 body.bytes.length (body.relocations.map (·.span)) ∧
      ∀ r ∈ body.relocations, r.size = 4 ∧ r.isDeferred = false := by
  obtain ⟨⟨placed, labels⟩, hplace, h⟩ := bind_eq_ok.mp h
  rw [(place_eq_ok hplace).placed] at h
  simpa using packed_of_emit h

end Arm

end ArmLink
