import Mathlib.Data.List.Pairwise
import Mathlib.Order.SuccPred.Basic
import Mathlib.Tactic.Common

/-!
# Separated ranges

Ranges of integers in a list are separated when each ends before the next one begins, with a number
between them that belongs to neither. A range that separated ranges cover lies in one of them
(`Separated.exists_of_covered`).
-/

/-- Each range ends before the next one begins, and does not touch it. -/
def Separated {ι : Type*} (lower upper : ι → ℤ) (l : List ι) : Prop :=
  l.Pairwise fun i j => upper i + 1 < lower j

namespace Separated

variable {ι : Type*} {lower upper : ι → ℤ} {l : List ι}

theorem nil : Separated lower upper [] := List.Pairwise.nil

theorem singleton (i : ι) : Separated lower upper [i] := List.pairwise_singleton _ _

/-- A range behind the last one. -/
theorem snoc {i : ι} (h : Separated lower upper l) (hi : ∀ j ∈ l, upper j + 1 < lower i) :
    Separated lower upper (l ++ [i]) := by
  refine List.pairwise_append.mpr ⟨h, singleton i, fun j hj k hk => ?_⟩
  rw [List.mem_singleton] at hk
  rw [hk]
  exact hi j hj

theorem of_snoc {i : ι} (h : Separated lower upper (l ++ [i])) :
    Separated lower upper l ∧ ∀ j ∈ l, upper j + 1 < lower i := by
  obtain ⟨hl, -, hi⟩ := List.pairwise_append.mp h
  exact ⟨hl, fun j hj => hi j hj i (List.mem_singleton_self i)⟩

/-- Two ranges of the list are the same or apart. -/
theorem eq_or_apart (h : Separated lower upper l) {i j : ι} (hi : i ∈ l) (hj : j ∈ l) :
    i = j ∨ upper i + 1 < lower j ∨ upper j + 1 < lower i := by
  rcases eq_or_ne i j with heq | hne
  · exact .inl heq
  · have hsymm : Std.Symm fun i j : ι => upper i + 1 < lower j ∨ upper j + 1 < lower i :=
      ⟨fun _ _ => Or.symm⟩
    have hapart : l.Pairwise fun i j => upper i + 1 < lower j ∨ upper j + 1 < lower i :=
      h.imp Or.inl
    exact .inr (hapart.forall hi hj hne)

/-- **A range that separated ranges cover lies in one of them.** -/
theorem exists_of_covered (h : Separated lower upper l) {a b : ℤ} (hab : a ≤ b)
    (hcover : ∀ n, a ≤ n → n ≤ b → ∃ i ∈ l, lower i ≤ n ∧ n ≤ upper i) :
    ∃ i ∈ l, lower i ≤ a ∧ b ≤ upper i := by
  obtain ⟨i, hi, hlo, hhi⟩ := hcover a le_rfl hab
  refine ⟨i, hi, hlo, ?_⟩
  by_contra hb
  -- The first number after the range would lie in a range that does not touch it.
  obtain ⟨j, hj, hlo', hhi'⟩ := hcover (upper i + 1) (by omega) (by omega)
  rcases h.eq_or_apart hi hj with rfl | hlt | hlt
  · omega
  · omega
  · omega

end Separated
