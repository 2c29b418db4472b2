import Mathlib.Data.Set.Basic
import Mathlib.Logic.Relation

/-!
# Safety up to an exit

`SafeUntil step good X E` says that from the states `X` the system meets only good states before
it reaches one of `E`: there is a set of good states that the states of `X` lie in, and that no
step leaves except into `E`. Such statements about pieces of a program compose to one about the
whole program (`SafeUntil.trans`, `SafeUntil.loop`); when the system stops at the exits they speak
of every reachable state (`SafeUntil.good_or_exit`).
-/

/-- From `X` only good states are met before `E`. -/
def SafeUntil {S : Type} (step : S → S → Prop) (good : S → Prop) (X E : Set S) : Prop :=
  ∃ A : Set S, X ⊆ A ∪ E ∧ (∀ s ∈ A, good s) ∧ ∀ s ∈ A, ∀ s', step s s' → s' ∈ A ∪ E

namespace SafeUntil

variable {S : Type} {step : S → S → Prop} {good good' : S → Prop} {X X' Y E E' : Set S} {s s' : S}

/-- Nothing is met when the exit has been reached. -/
theorem of_subset (h : X ⊆ E) : SafeUntil step good X E :=
  ⟨∅, fun _ hs => .inr (h hs), fun _ hs => hs.elim, fun _ hs => hs.elim⟩

/-- One step. -/
theorem single (hg : ∀ s ∈ X, good s) (h : ∀ s ∈ X, ∀ s', step s s' → s' ∈ E) :
    SafeUntil step good X E :=
  ⟨X, fun _ hs => .inl hs, hg, fun s hs s' hss => .inr (h s hs s' hss)⟩

theorem mono (h : SafeUntil step good X E) (hX : X' ⊆ X) (hE : E ⊆ E') :
    SafeUntil step good X' E' := by
  obtain ⟨A, hA, hg, hs⟩ := h
  exact ⟨A, hX.trans (hA.trans (Set.union_subset_union_right A hE)), hg,
    fun s ha s' hss => Set.union_subset_union_right A hE (hs s ha s' hss)⟩

theorem union (h : SafeUntil step good X E) (h' : SafeUntil step good X' E) :
    SafeUntil step good (X ∪ X') E := by
  obtain ⟨A, hA, hg, hs⟩ := h
  obtain ⟨A', hA', hg', hs'⟩ := h'
  have hl : A ∪ E ⊆ A ∪ A' ∪ E := Set.union_subset_union_left E Set.subset_union_left
  have hr : A' ∪ E ⊆ A ∪ A' ∪ E := Set.union_subset_union_left E Set.subset_union_right
  refine ⟨A ∪ A', Set.union_subset (hA.trans hl) (hA'.trans hr), ?_, ?_⟩
  · rintro s (ha | ha)
    · exact hg s ha
    · exact hg' s ha
  · rintro s (ha | ha) s' hss
    · exact hl (hs s ha s' hss)
    · exact hr (hs' s ha s' hss)

/-- **The exit of one piece is the entry of the next.** -/
theorem trans (h : SafeUntil step good X Y) (h' : SafeUntil step good Y E) :
    SafeUntil step good X E := by
  obtain ⟨A, hA, hg, hs⟩ := h
  obtain ⟨A', hA', hg', hs'⟩ := h'
  have hl : A ∪ Y ⊆ A ∪ A' ∪ E := by
    rintro s (ha | hy)
    · exact .inl (.inl ha)
    · exact (hA' hy).imp_left .inr
  have hr : A' ∪ E ⊆ A ∪ A' ∪ E := Set.union_subset_union_left E Set.subset_union_right
  refine ⟨A ∪ A', hA.trans hl, ?_, ?_⟩
  · rintro s (ha | ha)
    · exact hg s ha
    · exact hg' s ha
  · rintro s (ha | ha) s' hss
    · exact hl (hs s ha s' hss)
    · exact hr (hs' s ha s' hss)

/-- A piece with a second exit. -/
theorem trans_union (h : SafeUntil step good X (Y ∪ E)) (h' : SafeUntil step good Y E) :
    SafeUntil step good X E :=
  h.trans (h'.union (of_subset (Set.Subset.refl E)))

/-- **A loop.** The states from which control goes back to the entry are good. -/
theorem loop (h : SafeUntil step good X (Y ∪ E)) (hg : ∀ s ∈ Y, good s)
    (hback : ∀ s ∈ Y, ∀ s', step s s' → s' ∈ X ∪ E) : SafeUntil step good X E := by
  obtain ⟨A, hA, hgA, hs⟩ := h
  have hsub : A ∪ (Y ∪ E) ⊆ A ∪ Y ∪ E := by rw [Set.union_assoc]
  refine ⟨A ∪ Y, hA.trans hsub, ?_, ?_⟩
  · rintro s (ha | hy)
    · exact hgA s ha
    · exact hg s hy
  · rintro s (ha | hy) s' hss
    · exact hsub (hs s ha s' hss)
    · rcases hback s hy s' hss with hx | he
      · exact hsub (hA hx)
      · exact .inr he

/-- **Every reachable state is good, or an exit, when the system stops at the exits.** -/
theorem good_or_exit (h : SafeUntil step good X E) (hE : ∀ s ∈ E, ∀ s', ¬step s s') (hs : s ∈ X)
    (hr : Relation.ReflTransGen step s s') : good s' ∨ s' ∈ E := by
  obtain ⟨A, hA, hg, hstep⟩ := h
  have hmem : s' ∈ A ∪ E := by
    induction hr with
    | refl => exact hA hs
    | tail _ hss ih =>
      rcases ih with ha | he
      · exact hstep _ ha _ hss
      · exact absurd hss (hE _ he _)
  exact hmem.imp_left (hg s')

end SafeUntil
