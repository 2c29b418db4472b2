import Mathlib.Algebra.Order.Ring.Nat
import Mathlib.Order.MinMax
import Mathlib.Tactic.Common

/-!
# Arithmetic that may overflow

The operations on machine integers, as operations on natural numbers. The checked ones have no
result where it does not fit. The saturating ones stop at a cap: a counter that has not stopped is
what it counts, and `Saturating.Covers` says that a counter stands for at least so much and goes
through the operations of counters.
-/

/-! ## Checked operations -/

namespace Overflow

variable {bits a b n : ℕ}

/-- Addition of words. -/
def checkedAdd (bits a b : ℕ) : Option ℕ := if a + b < 2 ^ bits then some (a + b) else none

/-- Multiplication of words. -/
def checkedMul (bits a b : ℕ) : Option ℕ := if a * b < 2 ^ bits then some (a * b) else none

/-- Subtraction, which may only be negative. -/
def checkedSub (a b : ℕ) : Option ℕ := if b ≤ a then some (a - b) else none

theorem checkedAdd_eq_some : checkedAdd bits a b = some n ↔ a + b < 2 ^ bits ∧ n = a + b := by
  rw [checkedAdd]
  split_ifs with h
  · simp [h, eq_comm]
  · simp [h]

theorem checkedMul_eq_some : checkedMul bits a b = some n ↔ a * b < 2 ^ bits ∧ n = a * b := by
  rw [checkedMul]
  split_ifs with h
  · simp [h, eq_comm]
  · simp [h]

end Overflow

/-! ## Saturating operations -/

namespace Saturating

/-- Where counters of 32 bits stop. -/
def u32Max : ℕ := 2 ^ 32 - 1

/-- Addition that stops at the cap. -/
def add (cap a b : ℕ) : ℕ := min (a + b) cap

/-- Multiplication that stops at the cap. -/
def mul (cap a b : ℕ) : ℕ := min (a * b) cap

/-- A sum of numbers that stops at the cap. -/
def sum (cap : ℕ) (ns : List ℕ) : ℕ := ns.foldl (add cap) 0

/-- The counter is at least `a`, or has stopped. -/
def Covers (cap counter a : ℕ) : Prop := min a cap ≤ counter

variable {cap A B a b k n : ℕ}

/-- A sum that has not stopped. -/
theorem add_of_lt (h : add cap a b < cap) : add cap a b = a + b := by
  unfold add at *
  omega

theorem mul_of_lt (h : mul cap a b < cap) : mul cap a b = a * b := by
  unfold mul at *
  omega

theorem foldl_add (ns : List ℕ) (ha : a ≤ cap) : ns.foldl (add cap) a = min (a + ns.sum) cap := by
  induction ns generalizing a with
  | nil => simp [ha]
  | cons n ns ih =>
    have hsum : add cap a n ≤ cap := min_le_right _ _
    rw [List.foldl_cons, ih hsum, List.sum_cons, add]
    omega

theorem sum_eq (ns : List ℕ) : sum cap ns = min ns.sum cap := by
  rw [sum, foldl_add ns (Nat.zero_le _), Nat.zero_add]

theorem sum_of_lt {ns : List ℕ} (h : sum cap ns < cap) : sum cap ns = ns.sum := by
  rw [sum_eq] at h ⊢
  omega

theorem Covers.zero : Covers cap A 0 := (min_le_left 0 cap).trans (Nat.zero_le A)

/-- A counter below the cap is at least what it covers. -/
theorem Covers.le (h : Covers cap A a) (hA : A < cap) : a ≤ A := by
  rcases min_le_iff.mp (h : min a cap ≤ A) with h | h
  · exact h
  · exact absurd h (not_le.mpr hA)

theorem Covers.mono (h : Covers cap A a) (hle : b ≤ a) : Covers cap A b :=
  (min_le_min_right cap hle).trans h

theorem Covers.trans_le (h : Covers cap A a) (hle : A ≤ B) : Covers cap B a := h.trans hle

theorem Covers.add (hA : Covers cap A a) (hB : Covers cap B b) :
    Covers cap (add cap A B) (a + b) := by
  unfold Covers at *
  unfold Saturating.add
  omega

theorem Covers.mul (hA : Covers cap A a) (hk : k ≤ n) : Covers cap (mul cap A n) (k * a) := by
  unfold Covers at *
  unfold Saturating.mul
  rcases Nat.eq_zero_or_pos k with rfl | hpos
  · rw [Nat.zero_mul]
    exact (min_le_left 0 cap).trans (Nat.zero_le _)
  rcases le_total cap A with hcap | hcap
  · -- the counter has stopped, and stays so
    have hle : cap ≤ A * n := hcap.trans (Nat.le_mul_of_pos_right A (hpos.trans_le hk))
    rw [min_eq_right hle]
    exact min_le_right _ _
  · rcases le_total a cap with ha | ha
    · rw [min_eq_left ha] at hA
      refine min_le_min_right cap ?_
      calc k * a ≤ n * A := Nat.mul_le_mul hk hA
        _ = A * n := Nat.mul_comm n A
    · rw [min_eq_right ha] at hA
      have hle : cap ≤ A * n := hA.trans (Nat.le_mul_of_pos_right A (hpos.trans_le hk))
      rw [min_eq_right hle]
      exact min_le_right _ _

end Saturating
