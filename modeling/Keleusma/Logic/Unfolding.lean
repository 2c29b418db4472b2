import Mathlib.Dynamics.FixedPoints.Basic
import Mathlib.Tactic.Common

/-!
# Recursion by turns

A function that calls itself is a fixed point of a *turn*, which computes the answer at an argument
from answers at others. When a turn asks only at arguments of smaller measure (`Descends`) the
recursion ends: unfolded more often than the measure says, it no longer depends on what the
innermost turn was given (`Descends.iterate_eq`), and it has exactly one solution
(`Descends.ends`).
-/

/-- A turn asks only at arguments of smaller measure. -/
def Descends {α γ : Type*} (measure : α → ℕ) (turn : (α → γ) → α → γ) : Prop :=
  ∀ x w w', (∀ y, measure y < measure x → w y = w' y) → turn w x = turn w' x

/-- The recursion by turns ends with the answers `w`. -/
structure Ends {α γ : Type*} (measure : α → ℕ) (turn : (α → γ) → α → γ) (w : α → γ) : Prop where
  descends : Descends measure turn
  fixed : Function.IsFixedPt turn w
  reached : ∀ base n x, measure x < n → turn^[n] base x = w x
  unique : ∀ w', Function.IsFixedPt turn w' → w' = w

namespace Descends

variable {α γ : Type*} {measure : α → ℕ} {turn : (α → γ) → α → γ}

/-- **Enough unfoldings.** The answer does not depend on their number, nor on what the innermost
one starts from. -/
theorem iterate_eq (h : Descends measure turn) (w w' : α → γ) {n n' : ℕ} {x : α}
    (hn : measure x < n) (hn' : measure x < n') : turn^[n] w x = turn^[n'] w' x := by
  induction n generalizing n' x with
  | zero => exact absurd hn (Nat.not_lt_zero _)
  | succ n ih =>
    obtain ⟨k, rfl⟩ := Nat.exists_eq_add_of_lt hn'
    rw [Function.iterate_succ_apply', Function.iterate_succ_apply']
    exact h x _ _ fun y hy => ih (by omega) (by omega)

/-- **The recursion ends** when the measure is bounded. -/
theorem ends (h : Descends measure turn) {n : ℕ} (hn : ∀ x, measure x < n) (base : α → γ) :
    Ends measure turn (turn^[n] base) := by
  refine ⟨h, ?_, fun base' m x hm => h.iterate_eq base' base hm (hn x), fun w' hw' => ?_⟩
  · funext x
    have hsucc : turn (turn^[n] base) = turn^[n + 1] base :=
      (Function.iterate_succ_apply' turn n base).symm
    rw [hsucc]
    exact h.iterate_eq base base (Nat.lt_succ_of_lt (hn x)) (hn x)
  · funext x
    rw [← Function.iterate_fixed hw' n]
    exact h.iterate_eq w' base (hn x) (hn x)

end Descends
