import ArmLink.Proofs.Object.Readable
import ArmLink.Proofs.Resolve.Refusal

/-!
# Where machine code is patched

What an encoder leaves open is closed when relocations are applied. That works out only if every
patch is a word of the code it belongs to, and if no two patches of a function share bytes.
-/

namespace ArmLink.Arm

/-- **Sites.** Whatever the instruction, its code has one to five words and at most one patch, which
is about one of the words: a zero for an address, or a branch that keeps its condition and opcode.
The patches of a body are in order, share no bytes and lie within the body, so that none of them is
out of the bounds of a symbol that is as long as its contents. Bodies have less than 2^32 bytes. -/
theorem patches_within_code : (∀ (i : Instruction) (pc : Nat) (labels : String → Option Nat),
      encode i pc labels ≠ .error .secondRelocation ∧
        ∀ code, encode i pc labels = .ok code →
          code.Neat 5 ∧ ∀ r ∈ code.relocation, r.stop ≤ code.size) ∧
      (∀ instructions body, assemble instructions = .ok body →
        (body.relocations.Pairwise fun r r' => r.offset < r'.offset ∧ r.stop ≤ r'.offset) ∧
          ∀ r ∈ body.relocations, r.stop ≤ body.bytes.length) ∧
      ∀ e s, Object.symbol e = .ok s → e.size = none →
        ∃ body, Object.contents e = .ok body ∧ body.relocations <+: s.relocations ∧
          ∀ r ∈ body.relocations, ∀ (c : Resolve.Context) (t : SymbolTable) (owner : SymbolId)
            (bind : String → SymbolId), (t.get owner).size = s.size →
            ∀ text offset size bound,
              Resolve.resolve c t owner (r.map bind) ≠
                .error (.outOfBounds text offset size bound) := by
  refine ⟨fun i pc labels => ?_, fun instructions body h => ?_, fun e s h hdefault => ?_⟩
  · have hneat := neat_encode i pc labels
    refine ⟨fun he => hneat.of_error he rfl, fun code hcode => ?_⟩
    exact ⟨hneat.of_ok hcode, fun r hr => ((hneat.of_ok hcode).fields r hr).2.2⟩
  · obtain ⟨hpacked, hfields⟩ := packed_of_assemble h
    refine ⟨?_, fun r hr => (hpacked.within (List.mem_map_of_mem hr)).2.2⟩
    refine (List.pairwise_map.mp hpacked.pairwise).imp_of_mem fun {r r'} hr _ hle => ⟨?_, hle⟩
    have hstop : r.offset + r.size ≤ r'.offset := hle
    have hsize := (hfields r hr).1
    omega
  · obtain ⟨body, patches, hbody, -, -, -, hsize, hrelocations, -⟩ := Object.symbol_ok h
    refine ⟨body, hbody, ⟨patches, hrelocations.symm⟩, fun r hr c t owner bind howner => ?_⟩
    intro text offset size bound hresolve
    have hstop := (Object.patches_of_contents hbody r hr).2
    cases Resolve.refused_of_resolve hresolve rfl with
    | outOfBounds hlt =>
      rw [howner, hsize, hdefault] at hlt
      exact absurd hlt (Nat.not_lt.mpr hstop)

/-- A call of a function, and then the address of a variable. -/
def callAndLoad : List Instruction :=
  [⟨.bl, .al, .none, .branch (.symbol "f" 0), none⟩,
    ⟨.movw, .al, .none, .loadConstant 4 (some "v") 0, none⟩]

theorem patches_within_code_sample :
    ∃ body, assemble callAndLoad = .ok body ∧ body.relocations.map (·.offset) = [0, 12] ∧
      (body.relocations.Pairwise fun r r' => r.offset < r'.offset ∧ r.stop ≤ r'.offset) ∧
        ∀ r ∈ body.relocations, r.stop ≤ body.bytes.length :=
  ⟨_, rfl, rfl, patches_within_code.2.1 callAndLoad _ rfl⟩

end ArmLink.Arm
