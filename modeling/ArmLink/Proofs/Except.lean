import Mathlib.Data.List.Forall2

/-!
# Computations that may fail

What a computation that succeeded has gone through, and where one that failed has stopped.
-/

namespace ArmLink

open List

variable {ε ε' α β σ : Type} {x : Except ε α} {f : α → Except ε β} {a : α} {b : β} {e : ε}
  {P : σ → Prop} {as : List α} {bs : List β}

theorem bind_eq_ok : (x >>= f) = .ok b ↔ ∃ a, x = .ok a ∧ f a = .ok b := by
  cases x with
  | error e =>
    constructor
    · intro h
      cases h
    · rintro ⟨_, h, -⟩
      cases h
  | ok a =>
    constructor
    · exact fun h => ⟨a, rfl, h⟩
    · rintro ⟨_, h, hf⟩
      cases h
      exact hf

/-- A computation that nobody looks at is a plain one. -/
theorem run_bind {x : ExceptT ε Id α} {f : α → ExceptT ε Id β} :
    (x >>= f).run = (x.run >>= fun a => (f a).run : Except ε β) := by
  rw [ExceptT.run_bind]
  cases x.run with
  | error e => rfl
  | ok a => rfl

theorem run_bind_eq_ok {x : ExceptT ε Id α} {f : α → ExceptT ε Id β} :
    (x >>= f).run = (.ok b : Except ε β) ↔
      ∃ a, x.run = (.ok a : Except ε α) ∧ (f a).run = (.ok b : Except ε β) := by
  rw [run_bind]
  exact bind_eq_ok

theorem bind_eq_error : (x >>= f) = .error e ↔ x = .error e ∨ ∃ a, x = .ok a ∧ f a = .error e := by
  cases x with
  | error e' =>
    constructor
    · intro h
      exact .inl (congrArg _ (Except.error.inj h))
    · rintro (h | ⟨_, h, -⟩)
      · exact congrArg _ (Except.error.inj h)
      · cases h
  | ok a =>
    constructor
    · exact fun h => .inr ⟨a, rfl, h⟩
    · rintro (h | ⟨_, h, hf⟩)
      · cases h
      · cases h
        exact hf

theorem run_bind_eq_error {x : ExceptT ε Id α} {f : α → ExceptT ε Id β}
    (h : (x >>= f).run = (.error e : Except ε β)) : x.run = (.error e : Except ε α) ∨
      ∃ a, x.run = (.ok a : Except ε α) ∧ (f a).run = (.error e : Except ε β) := by
  rw [run_bind] at h
  exact bind_eq_error.mp h

theorem pure_eq_ok {a b : α} : (pure a : Except ε α) = .ok b ↔ a = b :=
  ⟨fun h => Except.ok.inj h, fun h => h ▸ rfl⟩

theorem bind_pure_eq_ok {f : α → β} :
    (x >>= fun a => pure (f a)) = .ok b ↔ ∃ a, x = .ok a ∧ f a = b := by
  simp only [bind_eq_ok, pure_eq_ok]

theorem mapError_eq_ok {f : ε → ε'} : x.mapError f = .ok a ↔ x = .ok a := by
  cases x with
  | error e => exact ⟨nofun, nofun⟩
  | ok b => exact ⟨fun h => congrArg _ (Except.ok.inj h), fun h => congrArg _ (Except.ok.inj h)⟩

theorem mapError_eq_error {f : ε → ε'} {e' : ε'} :
    x.mapError f = .error e' ↔ ∃ e, x = .error e ∧ f e = e' := by
  cases x with
  | error e =>
    constructor
    · exact fun h => ⟨e, rfl, Except.error.inj h⟩
    · rintro ⟨_, h, rfl⟩
      cases h
      rfl
  | ok b => exact ⟨nofun, fun ⟨_, h, _⟩ => nomatch h⟩

theorem toOption_eq_some : x.toOption = some a ↔ x = .ok a := by
  cases x with
  | error e => exact ⟨nofun, nofun⟩
  | ok b => exact ⟨fun h => congrArg _ (Option.some.inj h), fun h => congrArg _ (Except.ok.inj h)⟩

/-! ## Results that can be computed -/

section Decidable

variable {y : Except ε (α × β)} {P : α → Prop} {Q : α → β → Prop}

/-- Whether a computation succeeds with a result of some kind is seen by running it. -/
instance decidableExistsOk [DecidablePred P] : Decidable (∃ a, x = .ok a ∧ P a) :=
  match x with
  | .ok a => decidable_of_iff (P a) ⟨fun h => ⟨a, rfl, h⟩, fun ⟨_, ha, h⟩ => Except.ok.inj ha ▸ h⟩
  | .error _ => .isFalse fun ⟨_, ha, _⟩ => nomatch ha

instance decidableExistsOkPair [∀ a b, Decidable (Q a b)] :
    Decidable (∃ a b, y = .ok (a, b) ∧ Q a b) :=
  decidable_of_iff (∃ c, y = .ok c ∧ Q c.1 c.2)
    ⟨fun ⟨c, hc, h⟩ => ⟨c.1, c.2, hc, h⟩, fun ⟨a, b, hc, h⟩ => ⟨(a, b), hc, h⟩⟩

instance decidableExistsEqOk : Decidable (∃ a, x = .ok a) :=
  decidable_of_iff (∃ a, x = .ok a ∧ True) (by simp only [and_true])

instance decidableEqOk [DecidableEq α] {a : α} : Decidable (x = .ok a) :=
  decidable_of_iff _ toOption_eq_some

instance decidableEqError [DecidableEq ε] {e : ε} : Decidable (x = .error e) :=
  match x with
  | .ok _ => .isFalse nofun
  | .error _ => decidable_of_iff _ (Except.error.injEq _ _).symm.to_iff

end Decidable

/-- A property that every successful step of a loop preserves holds at the end of it. -/
theorem foldlM_ok_induction {step : σ → α → Except ε σ} {s s' : σ}
    (h : as.foldlM step s = .ok s') (hs : P s)
    (hstep : ∀ s a s', a ∈ as → P s → step s a = .ok s' → P s') : P s' := by
  induction as generalizing s with
  | nil =>
    obtain rfl := pure_eq_ok.mp h
    exact hs
  | cons a as ih =>
    obtain ⟨s₁, h₁, h₂⟩ := bind_eq_ok.mp h
    refine ih h₂ (hstep s a s₁ mem_cons_self hs h₁) fun s b s' hb => ?_
    exact hstep s b s' (mem_cons_of_mem a hb)

theorem forall₂_of_mapM_ok (h : as.mapM f = .ok bs) : Forall₂ (fun a b => f a = .ok b) as bs := by
  induction as generalizing bs with
  | nil =>
    cases pure_eq_ok.mp h
    exact .nil
  | cons a as ih =>
    rw [mapM_cons] at h
    obtain ⟨b, hb, h⟩ := bind_eq_ok.mp h
    obtain ⟨rest, hrest, ⟨⟩⟩ := bind_pure_eq_ok.mp h
    exact .cons hb (ih hrest)

theorem exists_of_mapM_ok (h : as.mapM f = .ok bs) : ∀ b ∈ bs, ∃ a ∈ as, f a = .ok b := by
  have hall := forall₂_of_mapM_ok h
  clear h
  induction hall with
  | nil => exact nofun
  | cons hb _ ih =>
    refine forall_mem_cons.mpr ⟨⟨_, mem_cons_self, hb⟩, fun c hc => ?_⟩
    obtain ⟨a, ha, hc⟩ := ih c hc
    exact ⟨a, mem_cons_of_mem _ ha, hc⟩

/-- A property that every step of a loop preserves holds at the end of it. -/
theorem foldl_induction {step : σ → α → σ} {s : σ} (hs : P s)
    (hstep : ∀ s a, a ∈ as → P s → P (step s a)) : P (as.foldl step s) := by
  induction as generalizing s with
  | nil => exact hs
  | cons a as ih =>
    exact ih (hstep s a mem_cons_self hs) fun s b hb => hstep s b (mem_cons_of_mem a hb)

/-- A failure of a computation has one property, and a result has another. -/
structure Gives (E : ε → Prop) (P : α → Prop) (x : Except ε α) : Prop where
  of_error : ∀ {e}, x = .error e → E e
  of_ok : ∀ {a}, x = .ok a → P a

section Gives

variable {E : ε → Prop} {P : α → Prop} {Q : β → Prop}

theorem gives_error {e : ε} (h : E e) : Gives E P (.error e) :=
  ⟨fun he => Except.error.inj he ▸ h, nofun⟩

theorem gives_pure {a : α} (h : P a) : Gives E P (pure a) :=
  ⟨nofun, fun hb => pure_eq_ok.mp hb ▸ h⟩

theorem Gives.bind {f : α → Except ε β} (hx : Gives E P x) (hf : ∀ a, P a → Gives E Q (f a)) :
    Gives E Q (x >>= f) := by
  refine ⟨fun h => ?_, fun h => ?_⟩
  · rcases bind_eq_error.mp h with he | ⟨a, ha, he⟩
    · exact hx.of_error he
    · exact (hf a (hx.of_ok ha)).of_error he
  · obtain ⟨a, ha, hb⟩ := bind_eq_ok.mp h
    exact (hf a (hx.of_ok ha)).of_ok hb

theorem Gives.ite {p : Prop} [Decidable p] {y : Except ε α} (hx : p → Gives E P x)
    (hy : ¬ p → Gives E P y) : Gives E P (if p then x else y) := by
  split
  · exact hx ‹_›
  · exact hy ‹_›

theorem Gives.imp {F : ε → Prop} (h : Gives E P x) (hE : ∀ e, E e → F e) : Gives F P x :=
  ⟨fun he => hE _ (h.of_error he), h.of_ok⟩

theorem Gives.mono {P' : α → Prop} (h : Gives E P x) (hP : ∀ a, P a → P' a) : Gives E P' x :=
  ⟨h.of_error, fun ha => hP _ (h.of_ok ha)⟩

end Gives

/-! ## Two computations -/

/-- Both computations fail, with errors that `E` relates, or both succeed, with results that `R`
relates. -/
inductive Alike (E : ε → ε' → Prop) (R : α → β → Prop) : Except ε α → Except ε' β → Prop
  | error {e : ε} {e' : ε'} (h : E e e') : Alike E R (.error e) (.error e')
  | ok {a : α} {b : β} (h : R a b) : Alike E R (.ok a) (.ok b)

namespace Alike

variable {α' β' : Type} {E : ε → ε' → Prop} {R : α → β → Prop} {S : α' → β' → Prop}
  {y : Except ε' β}

theorem refl (x : Except ε α) : Alike (· = ·) (· = ·) x x := by
  cases x with
  | error e => exact .error rfl
  | ok a => exact .ok rfl

theorem eq {x y : Except ε α} (h : Alike (· = ·) (· = ·) x y) : x = y := by
  cases h with
  | error h => exact congrArg _ h
  | ok h => exact congrArg _ h

theorem bind {f : α → Except ε α'} {g : β → Except ε' β'} (h : Alike E R x y)
    (hnext : ∀ a b, R a b → Alike E S (f a) (g b)) : Alike E S (x >>= f) (y >>= g) := by
  cases h with
  | error h => exact .error h
  | ok h => exact hnext _ _ h

/-- What the results have in common may follow from where they come from. -/
theorem imp {Q : α → β → Prop} (h : Alike E R x y)
    (hRQ : ∀ a b, x = .ok a → y = .ok b → R a b → Q a b) : Alike E Q x y := by
  cases h with
  | error h => exact .error h
  | ok h => exact .ok (hRQ _ _ rfl rfl h)

theorem mapError {φ φ' : Type} {F : φ → φ' → Prop} {f : ε → φ} {g : ε' → φ'} (h : Alike E R x y)
    (herror : ∀ e e', E e e' → F (f e) (g e')) : Alike F R (x.mapError f) (y.mapError g) := by
  cases h with
  | error h => exact .error (herror _ _ h)
  | ok h => exact .ok h

/-- Loops whose steps end in the same way do so themselves. -/
theorem foldlM {σ' γ : Type} {Q : σ → σ' → Prop} {f : σ → γ → Except ε σ}
    {g : σ' → γ → Except ε' σ'} {as : List γ}
    (hstep : ∀ s s' a, a ∈ as → Q s s' → Alike E Q (f s a) (g s' a)) {s : σ} {s' : σ'}
    (hs : Q s s') : Alike E Q (as.foldlM f s) (as.foldlM g s') := by
  induction as generalizing s s' with
  | nil => exact .ok hs
  | cons a as ih =>
    refine (hstep s s' a mem_cons_self hs).bind fun s s' hs => ?_
    exact ih (fun s s' a ha => hstep s s' a (mem_cons_of_mem _ ha)) hs

/-- Computations whose results are related by a function. -/
theorem of_map {f : α → β} (x : Except ε α) : Alike (· = ·) (fun a b => b = f a) x (x.map f) := by
  cases x with
  | error e => exact .error rfl
  | ok a => exact .ok rfl

end Alike

end ArmLink
