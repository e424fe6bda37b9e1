import ArmLink.Alignment

/-!
# Rounding to alignments

Rounding up gives a multiple that is not below the number. What is moved by multiples of an
alignment stays aligned for it and for the weaker ones.
-/

namespace ArmLink.Alignment

variable {a b : Alignment} {m n : Nat}

theorem value_pos (a : Alignment) : 0 < a.value := Nat.pow_pos (by decide)

theorem dvd_alignUp (a : Alignment) (n : Nat) : a.value ∣ a.alignUp n := Nat.dvd_mul_left ..

theorem le_alignUp (a : Alignment) (n : Nat) : n ≤ a.alignUp n := by
  have hpos := a.value_pos
  have hmod := Nat.mod_lt (n + (a.value - 1)) hpos
  have hdiv := Nat.div_add_mod' (n + (a.value - 1)) a.value
  unfold alignUp
  omega

@[simp] theorem alignUp_zero : a.alignUp 0 = 0 := by
  have hpos := a.value_pos
  rw [alignUp, Nat.div_eq_of_lt (by omega), Nat.zero_mul]

/-- What a successful rounding gives. -/
theorem alignUp?_eq_some (h : a.alignUp? m = some n) : n = a.alignUp m ∧ n < addressSpace := by
  unfold alignUp? at h
  split at h
  · obtain rfl := Option.some.inj h
    exact ⟨rfl, ‹_›⟩
  · cases h

/-- Of two powers of two the smaller one divides the larger. -/
theorem value_dvd_value_iff : a.value ∣ b.value ↔ a.value ≤ b.value := by
  simp only [value, Nat.pow_eq]
  rw [Nat.pow_dvd_pow_iff_le_right (by decide), Nat.pow_le_pow_iff_right (by decide)]

/-- An alignment that is accepted is the number that was asked for. -/
theorem value_of_ofNat? {raw : Nat} (h : ofNat? raw = .ok a) :
    a.value = raw ∧ a.value ≤ largest.value := by
  unfold ofNat? at h
  split at h
  · cases h
  · rename_i hpower
    split at h
    · cases h
    · rename_i hlargest
      cases h
      refine ⟨(Decidable.not_not.mp fun hne => hpower (.inr hne)).symm, ?_⟩
      exact Nat.pow_le_pow_right (by decide) (Nat.le_of_not_lt hlargest)

theorem value_dvd_max (a b : Alignment) : a.value ∣ (a.max b).value := by
  unfold max
  split
  · rename_i hlt
    exact Nat.pow_dvd_pow 2 (Nat.le_of_lt hlt)
  · exact Nat.dvd_refl _

theorem dvd_add_multiples_iff {v : Nat} :
    (∀ bias, b.value ∣ bias → a.value ∣ v + bias) ↔ a.value ∣ v ∧ a.value ≤ b.value := by
  rw [← value_dvd_value_iff]
  constructor
  · intro h
    have hv : a.value ∣ v := h 0 (Nat.dvd_zero _)
    exact ⟨hv, (Nat.dvd_add_right hv).mp (h b.value (Nat.dvd_refl _))⟩
  · rintro ⟨hv, hvalue⟩ bias hbias
    exact Nat.dvd_add hv (Nat.dvd_trans hvalue hbias)

end ArmLink.Alignment
