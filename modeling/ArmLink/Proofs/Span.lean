/-!
# Spans and packings

A span is a range of addresses or of file offsets. A list of spans is packed between two bounds if
each span starts where the ones before it have ended, or later, and none passes the upper bound.
Sections hold symbols, segments hold sections, and a file holds both; each level is packed within
the spans of the level above.
-/

namespace ArmLink

open List

/-- A half-open range of addresses or offsets. -/
structure Span where
  start : Nat
  stop : Nat
  deriving DecidableEq, Repr

namespace Span

def ofLength (start length : Nat) : Span := ⟨start, start + length⟩

/-- One span ends before the other starts. -/
def Apart (a b : Span) : Prop := a.stop ≤ b.start ∨ b.stop ≤ a.start

instance (a b : Span) : Decidable (Apart a b) := inferInstanceAs (Decidable (_ ∨ _))

/-- The span moved down by `base`. -/
def lower (base : Nat) (s : Span) : Span := ⟨s.start - base, s.stop - base⟩

/-- Spans that follow each other between `lo` and `hi`. -/
inductive Packed : (lo hi : Nat) → List Span → Prop where
  | nil {lo hi : Nat} (h : lo ≤ hi) : Packed lo hi []
  | cons {lo hi : Nat} {s : Span} {rest : List Span} (hlo : lo ≤ s.start) (hs : s.start ≤ s.stop)
      (h : Packed s.stop hi rest) : Packed lo hi (s :: rest)

namespace Packed

variable {lo mid hi : Nat} {xs ys : List Span}

theorem le (h : Packed lo hi xs) : lo ≤ hi := by
  induction h with
  | nil h => exact h
  | cons hlo hs _ ih => omega

theorem widen {lo' hi' : Nat} (h : Packed lo hi xs) (hlo : lo' ≤ lo) (hhi : hi ≤ hi') :
    Packed lo' hi' xs := by
  induction h generalizing lo' with
  | nil h => exact .nil (by omega)
  | cons hl hs _ ih => exact .cons (by omega) hs (ih (Nat.le_refl _) hhi)

theorem append (hx : Packed lo mid xs) (hy : Packed mid hi ys) : Packed lo hi (xs ++ ys) := by
  induction hx with
  | nil h => exact hy.widen h (Nat.le_refl _)
  | cons hlo hs _ ih => exact .cons hlo hs (ih hy)

variable (h : Packed lo hi xs)
include h

theorem within {s : Span} (hs : s ∈ xs) : lo ≤ s.start ∧ s.start ≤ s.stop ∧ s.stop ≤ hi := by
  induction h with
  | nil => cases hs
  | cons hlo hle hrest ih =>
    rcases mem_cons.mp hs with rfl | hs
    · exact ⟨hlo, hle, hrest.le⟩
    · obtain ⟨h₁, h₂, h₃⟩ := ih hs
      exact ⟨by omega, h₂, h₃⟩

theorem pairwise : xs.Pairwise fun a b => a.stop ≤ b.start := by
  induction h with
  | nil => exact .nil
  | cons _ _ hrest ih => exact .cons (fun b hb => (hrest.within hb).1) ih

theorem apart : xs.Pairwise Apart :=
  h.pairwise.imp Or.inl

theorem tighten {lo' hi' : Nat} (hspans : ∀ s ∈ xs, lo' ≤ s.start ∧ s.stop ≤ hi')
    (hle : lo' ≤ hi') : Packed lo' hi' xs := by
  induction h generalizing lo' with
  | nil => exact .nil hle
  | cons hlo hs hrest ih =>
    obtain ⟨⟨hstart, hstop⟩, hspans⟩ := forall_mem_cons.mp hspans
    exact .cons hstart hs (ih (fun s hs => ⟨(hrest.within hs).1, (hspans s hs).2⟩) hstop)

theorem sublist (hsub : ys.Sublist xs) : Packed lo hi ys := by
  induction hsub generalizing lo with
  | slnil => exact h
  | cons s _ ih =>
    cases h with
    | cons hlo hs hrest => exact ih (hrest.widen (by omega) (Nat.le_refl _))
  | cons_cons s _ ih =>
    cases h with
    | cons hlo hs hrest => exact .cons hlo hs (ih hrest)

omit h

theorem flatMap {α : Type} {span : α → Span} {inner : α → List Span} {as : List α}
    (h : Packed lo hi (as.map span))
    (hinner : ∀ a ∈ as, Packed (span a).start (span a).stop (inner a)) :
    Packed lo hi (as.flatMap inner) := by
  induction as generalizing lo with
  | nil => exact .nil h.le
  | cons a as ih =>
    cases h with
    | cons hlo hs hrest =>
      have hhead : Packed lo (span a).stop (inner a) :=
        (hinner a mem_cons_self).widen hlo (Nat.le_refl _)
      exact hhead.append (ih hrest fun b hb => hinner b (mem_cons_of_mem a hb))

theorem lower (h : Packed lo hi xs) (base : Nat) :
    Packed (lo - base) (hi - base) (xs.map (Span.lower base)) := by
  induction h with
  | nil h => exact .nil (by omega)
  | cons hlo hs _ ih =>
    refine .cons ?_ ?_ ih
    · show _ - base ≤ _ - base
      omega
    · show _ - base ≤ _ - base
      omega

end Packed

end Span

end ArmLink
