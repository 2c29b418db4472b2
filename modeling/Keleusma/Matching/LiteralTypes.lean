import Keleusma.Matching.MostGeneral
import Mathlib.Data.Finset.Card
import Mathlib.Data.List.Basic

/-!
# The type of a literal

The check of a pattern compares the type of a literal with the head that the other type has under
the substitution (`typesCompatible`). Following the variables at the head, one for each binding, is
far enough (`resolve_sameHead`), and the comparison is unification (`typesCompatible_unify`).
-/

namespace Keleusma.Matching

open Unification (Term Resolver)
open Unification.Term (Occurs)

variable {s : Subst} {t u : Ty} {n v : ℕ} {σ : ℕ → Term Head} {g h : Head} {as bs : List Ty}

/-- The two types are one variable, or have one head. -/
def SameHead (t u : Ty) : Prop :=
  (∃ v, t = .var v ∧ u = .var v) ∨ ∃ h as bs, t.shape = some (h, as) ∧ u.shape = some (h, bs)

theorem applies_node (hσ : Resolver s.bare σ) (ht : t.shape = some (h, as)) :
    ∃ t' bs, Applies s t t' ∧ t'.shape = some (h, bs) := by
  obtain ⟨as', has, hlen, -⟩ := applies_args fun u (_ : u ∈ as) => applies_resolved hσ u
  obtain ⟨t', ht', hshape⟩ := applies_of_args ht has hlen
  exact ⟨t', as', ht', hshape⟩

theorem stripLabels_of_shape (ht : t.shape = some (h, as)) : t.stripLabels = t := by
  cases t <;> cases ht <;> rw [Ty.stripLabels] <;> rintro _ _ ⟨⟩

/-- Labels around a type stay around what a substitution takes it to. -/
theorem applies_of_stripLabels (h : Applies s t.stripLabels u) :
    ∃ t', Applies s t t' ∧ t'.stripLabels = u.stripLabels := by
  induction t using Ty.induct generalizing u with
  | var v =>
    rw [Ty.stripLabels] at h
    · exact ⟨u, h, rfl⟩
    · rintro _ _ ⟨⟩
  | labelled t labels ih =>
    rw [Ty.stripLabels] at h
    obtain ⟨t', ht, hstrip⟩ := ih h
    exact ⟨.labelled t' labels, applies_labelled ht labels, by rw [Ty.stripLabels, hstrip]⟩
  | node t g args ht => exact ⟨u, stripLabels_of_shape ht ▸ h, rfl⟩

theorem sameHead_of_node (hσ : Resolver s.bare σ) (ht : t.stripLabels.shape = some (g, as)) :
    ∃ t', Applies s t t' ∧ SameHead t.stripLabels t'.stripLabels := by
  obtain ⟨u, us, hu, hshape⟩ := applies_node hσ ht
  obtain ⟨t', ht', hstrip⟩ := applies_of_stripLabels hu
  refine ⟨t', ht', .inr ⟨g, as, us, ht, ?_⟩⟩
  rw [hstrip, stripLabels_of_shape hshape, hshape]

theorem sameHead_of_free (ht : t.stripLabels = .var v) (hv : s.lookup v = none) :
    ∃ t', Applies s t t' ∧ SameHead (.var v) t'.stripLabels := by
  have hvar : Applies s t.stripLabels (.var v) := ht ▸ applies_free hv
  obtain ⟨t', ht', hstrip⟩ := applies_of_stripLabels hvar
  refine ⟨t', ht', .inl ⟨v, rfl, ?_⟩⟩
  rw [hstrip, Ty.stripLabels]
  rintro _ _ ⟨⟩

/-- The variables that have a binding and are ranked no higher. -/
def keysBelow (s : Subst) (rank : ℕ → ℕ) (v : ℕ) : Finset ℕ :=
  (s.map Prod.fst).toFinset.filter fun w => rank w ≤ rank v

theorem mem_keysBelow {rank : ℕ → ℕ} (hv : s.lookup v = some u) : v ∈ keysBelow s rank v := by
  obtain ⟨before, behind, rfl, -⟩ := List.lookup_eq_some_iff.mp hv
  rw [keysBelow, Finset.mem_filter, List.mem_toFinset, List.map_append, List.map_cons]
  exact ⟨List.mem_append_right _ List.mem_cons_self, le_rfl⟩

/-- Following the variables at the head of a type finds the head that it has when the substitution
is applied. Every variable on the way is bound, and ranked above the next. -/
theorem resolve_sameHead (hσ : Resolver s.bare σ) {rank : ℕ → ℕ}
    (hrank : ∀ v t, s.bare v = some t → ∀ w, Occurs w t → rank w < rank v)
    (hn : ∀ v, t.stripLabels = .var v → (keysBelow s rank v).card ≤ n) :
    ∃ t', Applies s t t' ∧ SameHead (s.resolve n t) t'.stripLabels := by
  induction n generalizing t with
  | zero =>
    rw [Subst.resolve]
    rcases Ty.plain_stripLabels t with ⟨v, ht⟩ | ⟨g, args, hshape⟩
    · cases hv : s.lookup v with
      | none => exact ht ▸ sameHead_of_free ht hv
      | some u =>
        have hempty := Finset.card_eq_zero.mp (Nat.le_zero.mp (hn v ht))
        exact absurd (hempty ▸ mem_keysBelow hv) (Finset.notMem_empty v)
    · exact sameHead_of_node hσ hshape
  | succ n ih =>
    rcases Ty.plain_stripLabels t with ⟨v, ht⟩ | ⟨g, args, hshape⟩
    · rw [Subst.resolve, ht]
      show ∃ t', Applies s t t' ∧
        SameHead ((s.lookup v).elim (.var v) (s.resolve n)) t'.stripLabels
      cases hv : s.lookup v with
      | none => exact sameHead_of_free ht hv
      | some u =>
        have hbound (w : ℕ) (hw : u.stripLabels = .var w) : (keysBelow s rank w).card ≤ n := by
          have hlt : rank w < rank v := by
            refine hrank v u.bare (Subst.bare_eq_some.mpr ⟨u, hv, rfl⟩) w ?_
            rw [← Ty.bare_stripLabels, hw, Ty.bare_var]
            exact .var
          have hsub : keysBelow s rank w ⊆ (keysBelow s rank v).erase v := by
            intro x hx
            obtain ⟨hx, hle⟩ := Finset.mem_filter.mp hx
            refine Finset.mem_erase.mpr ⟨?_, Finset.mem_filter.mpr ⟨hx, hle.trans hlt.le⟩⟩
            rintro rfl
            exact absurd hle (Nat.not_le.mpr hlt)
          have hcard := Finset.card_le_card hsub
          rw [Finset.card_erase_of_mem (mem_keysBelow hv)] at hcard
          have hle := hn v ht
          omega
        obtain ⟨u', hu, hhead⟩ := ih hbound
        have hvar : Applies s t.stripLabels u' := ht ▸ applies_bound hv hu
        obtain ⟨t', ht', hstrip⟩ := applies_of_stripLabels hvar
        exact ⟨t', ht', hstrip ▸ hhead⟩
    · have hself : s.resolve (n + 1) t = t.stripLabels := by
        rw [Subst.resolve]
        cases hstrip : t.stripLabels with
        | var v => rw [hstrip] at hshape; cases hshape
        | _ => rfl
      rw [hself]
      exact sameHead_of_node hσ hshape

variable {F : Type}

theorem typesCompatible_node (lit : Literal F)
    (hy : (s.resolve s.length t).shape = some (h, as)) :
    (lit.type.shape = some (h, []) ∧ typesCompatible s lit.type t = some s) ∨
      lit.type.shape ≠ some (h, []) ∧ typesCompatible s lit.type t = none := by
  unfold typesCompatible
  generalize s.resolve s.length t = y at hy
  cases lit <;> rw [Literal.type] <;> cases y <;> cases hy <;>
    first
    | exact .inl ⟨rfl, rfl⟩
    | exact .inr ⟨by rintro ⟨⟩, rfl⟩
    | skip
  case fixed m n =>
    by_cases hmn : m = n
    · exact .inl ⟨by rw [hmn]; rfl, if_pos hmn⟩
    · exact .inr ⟨fun heq => hmn (by cases heq; rfl), if_neg hmn⟩

theorem unifyHeads_literal (lit : Literal F) (hx : u.shape = some (h, bs)) :
    (lit.type.shape = some (h, []) ∧ unifyHeads lit.type u = .each [] []) ∨
      lit.type.shape ≠ some (h, []) ∧ ∃ e, unifyHeads lit.type u = .fail e := by
  cases lit <;> rw [Literal.type] <;> cases u <;> cases hx <;>
    first
    | exact .inl ⟨rfl, rfl⟩
    | exact .inr ⟨by rintro ⟨⟩, _, rfl⟩
    | skip
  case fixed m n =>
    by_cases hmn : m = n
    · exact .inl ⟨by rw [hmn]; rfl, if_pos hmn⟩
    · exact .inr ⟨fun heq => hmn (by cases heq; rfl), _, if_neg hmn⟩

/-- **The check of a literal's type** is unification with this type. -/
theorem typesCompatible_unify (lit : Literal F) (t : Ty) (hs : s.Acyclic) :
    ∃ N, ∀ n, N ≤ n → (∃ s', typesCompatible s lit.type t = some s' ∧
        unify n lit.type t s = some (.ok (), s')) ∨
      typesCompatible s lit.type t = none ∧ ∃ e, unify n lit.type t s = some (.error e, s) := by
  obtain ⟨σ, hσ⟩ := hs.bare.exists_resolver
  obtain ⟨rank, hrank⟩ := hs.bare
  have hkeys (v : ℕ) (_ : t.stripLabels = .var v) : (keysBelow s rank v).card ≤ s.length := by
    have hle : (keysBelow s rank v).card ≤ (s.map Prod.fst).toFinset.card :=
      Finset.card_le_card (Finset.filter_subset _ _)
    have hlen := List.toFinset_card_le (s.map Prod.fst)
    rw [List.length_map] at hlen
    exact hle.trans hlen
  obtain ⟨t', ⟨N, ht⟩, hhead⟩ := resolve_sameHead hσ hrank hkeys
  have hrun (n : ℕ) (hn : N ≤ n) : unify (n + 2) lit.type t s =
      (unifyHeads lit.type t'.stripLabels).run (unify (n + 1)) s := by
    have hlit : lit.type.apply s (n + 1) = some lit.type := by cases lit <;> rfl
    have hstrip : lit.type.stripLabels = lit.type := by
      cases lit <;> rw [Literal.type, Ty.stripLabels] <;> rintro _ _ ⟨⟩
    rw [unify, hlit, ht (n + 1) (by omega)]
    show (unifyHeads lit.type.stripLabels t'.stripLabels).run (unify (n + 1)) s = _
    rw [hstrip]
  refine ⟨N + 2, fun n hn => ?_⟩
  obtain ⟨n, rfl⟩ := Nat.exists_eq_add_of_le' hn
  rw [← Nat.add_assoc, hrun _ (Nat.le_add_left N n)]
  rcases hhead with ⟨v, hy, hx⟩ | ⟨h, as, bs, hy, hx⟩
  · refine .inl ⟨(v, lit.type) :: s, ?_, ?_⟩
    · unfold typesCompatible
      rw [hy]
    · rw [hx]
      cases lit <;> rfl
  · rcases typesCompatible_node lit hy with ⟨hshape, hcompat⟩ | ⟨hshape, hcompat⟩ <;>
      rcases unifyHeads_literal lit hx with ⟨hshape', hstep⟩ | ⟨hshape', e, hstep⟩
    · exact .inl ⟨s, hcompat, by rw [hstep]; rfl⟩
    · exact absurd hshape hshape'
    · exact absurd hshape' hshape
    · exact .inr ⟨hcompat, e, by rw [hstep]; rfl⟩

end Keleusma.Matching
