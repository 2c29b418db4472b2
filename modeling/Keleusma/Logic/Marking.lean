import Mathlib.Data.List.Perm.Subperm
import Mathlib.Tactic.Common

/-!
# Marking

Two loops that mark elements of a finite universe until there is nothing more to mark: rounds over
the universe with a rule (`rounds_closed`), and a search from marked elements with a work list
(`search_closed`). Both have a fuel; the size of the universe is enough of it.
-/

namespace Marking

variable {α : Type*} {marked all : List α}

theorem length_le (hnodup : marked.Nodup) (hsub : marked ⊆ all) :
    marked.length ≤ all.length :=
  (List.subperm_of_subset hnodup hsub).length_le

variable [DecidableEq α]

/-! ## Rounds -/

/-- Mark an element that the rule asks for. -/
def consider (rule : List α → α → Bool) (marked : List α) (a : α) : List α :=
  if a ∈ marked then marked else if rule marked a then a :: marked else marked

/-- Rounds over the universe until nothing is marked. -/
def rounds (rule : List α → α → Bool) (all : List α) : ℕ → List α → List α
  | 0, marked => marked
  | fuel + 1, marked =>
    let next := all.foldl (consider rule) marked
    if next.length = marked.length then marked else rounds rule all fuel next

variable {rule : List α → α → Bool}

theorem consider_suffix (marked : List α) (a : α) : marked <:+ consider rule marked a := by
  unfold consider
  split_ifs
  · exact List.suffix_rfl
  · exact List.suffix_cons a marked
  · exact List.suffix_rfl

theorem foldl_consider_suffix (as marked : List α) :
    marked <:+ as.foldl (consider rule) marked := by
  induction as generalizing marked with
  | nil => exact List.suffix_rfl
  | cons a as ih => exact (consider_suffix marked a).trans (ih _)

/-- What is marked stays in the universe, without duplicates. -/
theorem foldl_consider_ok {as : List α} (has : as ⊆ all) (hnodup : marked.Nodup)
    (hsub : marked ⊆ all) :
    (as.foldl (consider rule) marked).Nodup ∧ as.foldl (consider rule) marked ⊆ all := by
  induction as generalizing marked with
  | nil => exact ⟨hnodup, hsub⟩
  | cons a as ih =>
    obtain ⟨ha, has⟩ := List.cons_subset.mp has
    refine ih has ?_ ?_
    · unfold consider
      split_ifs with hmem hrule
      · exact hnodup
      · exact List.nodup_cons.mpr ⟨hmem, hnodup⟩
      · exact hnodup
    · unfold consider
      split_ifs
      · exact hsub
      · exact List.cons_subset.mpr ⟨ha, hsub⟩
      · exact hsub

/-- After a round that marks nothing the rule asks for nothing. -/
theorem closed_of_length {as : List α}
    (h : (as.foldl (consider rule) marked).length = marked.length) :
    ∀ a ∈ as, rule marked a = true → a ∈ marked := by
  induction as with
  | nil => exact fun a ha => absurd ha List.not_mem_nil
  | cons a as ih =>
    have hlen : (consider rule marked a).length = marked.length := by
      refine Nat.le_antisymm ?_ (consider_suffix marked a).length_le
      rw [← h]
      exact (foldl_consider_suffix as _).length_le
    have hsame : consider rule marked a = marked :=
      ((consider_suffix marked a).eq_of_length hlen.symm).symm
    rw [List.foldl_cons, hsame] at h
    intro b hb hrule
    rcases List.mem_cons.mp hb with rfl | hb
    · by_contra hmem
      rw [consider, if_neg hmem, if_pos hrule] at hlen
      exact absurd hlen (Nat.succ_ne_self _)
    · exact ih h b hb hrule

/-- **Rounds mark all that the rule asks for**, and what was marked before. -/
theorem rounds_closed (rule : List α → α → Bool) {fuel : ℕ} (hnodup : marked.Nodup)
    (hsub : marked ⊆ all) (hfuel : all.length < fuel + marked.length) :
    marked ⊆ rounds rule all fuel marked ∧ rounds rule all fuel marked ⊆ all ∧
    ∀ a ∈ all, rule (rounds rule all fuel marked) a = true →
      a ∈ rounds rule all fuel marked := by
  induction fuel generalizing marked with
  | zero =>
    have hle := length_le hnodup hsub
    omega
  | succ fuel ih =>
    rw [rounds]
    split_ifs with hlen
    · exact ⟨List.Subset.refl _, hsub, closed_of_length hlen⟩
    · have hsuffix : marked <:+ all.foldl (consider rule) marked := foldl_consider_suffix all marked
      obtain ⟨hnodup', hsub'⟩ : (all.foldl (consider rule) marked).Nodup ∧
          all.foldl (consider rule) marked ⊆ all :=
        foldl_consider_ok (List.Subset.refl all) hnodup hsub
      have hle := hsuffix.length_le
      obtain ⟨hmarked, hin, hclosed⟩ := ih hnodup' hsub' (by omega)
      exact ⟨List.Subset.trans hsuffix.subset hmarked, hin, hclosed⟩

/-- What is so of the first marks, and of what the rule asks for once it is so of all marks, is so of
all that the rounds mark. -/
theorem rounds_sound {P : α → Prop} {fuel : ℕ} (hstart : ∀ a ∈ marked, P a)
    (hrule : ∀ marked a, (∀ b ∈ marked, P b) → rule marked a = true → P a) :
    ∀ a ∈ rounds rule all fuel marked, P a := by
  have hfold (as marked : List α) (h : ∀ b ∈ marked, P b) :
      ∀ b ∈ as.foldl (consider rule) marked, P b := by
    induction as generalizing marked with
    | nil => exact h
    | cons a as ih =>
      refine ih _ ?_
      unfold consider
      split_ifs with hmem hasked
      · exact h
      · exact List.forall_mem_cons.mpr ⟨hrule marked a h hasked, h⟩
      · exact h
  induction fuel generalizing marked with
  | zero => exact hstart
  | succ fuel ih =>
    rw [rounds]
    split_ifs
    · exact hstart
    · exact ih (hfold all marked hstart)

/-! ## Search -/

/-- Mark an element, and put it on the work list. -/
def visit (s : List α × List α) (a : α) : List α × List α :=
  if a ∈ s.1 then s else (a :: s.1, a :: s.2)

/-- Take elements from the work list and visit their successors until it is empty. -/
def search (succ : α → List α) : ℕ → List α → List α → List α
  | 0, marked, _ => marked
  | _ + 1, marked, [] => marked
  | fuel + 1, marked, a :: work =>
    let s := (succ a).foldl visit (marked, work)
    search succ fuel s.1 s.2

/-- What visits do to the marks and to the work list. -/
structure Visits (as : List α) (s s' : List α × List α) : Prop where
  marks : s.1 ⊆ s'.1
  new : as ⊆ s'.1
  nodup : s.1.Nodup → s'.1.Nodup
  within : ∀ {all : List α}, as ⊆ all → s.1 ⊆ all → s'.1 ⊆ all
  work : s.2 ⊆ s.1 → s'.2 ⊆ s'.1
  done : ∀ a ∈ s'.1, a ∉ s'.2 → a ∈ s.1 ∧ a ∉ s.2
  length : s'.1.length + s.2.length = s.1.length + s'.2.length

omit [DecidableEq α] in
theorem Visits.nil (s : List α × List α) : Visits [] s s where
  marks := List.Subset.refl _
  new := List.nil_subset _
  nodup := id
  within _ := id
  work := id
  done _ h h' := ⟨h, h'⟩
  length := rfl

theorem Visits.cons {a : α} {as : List α} {s s' : List α × List α}
    (h : Visits as (visit s a) s') : Visits (a :: as) s s' := by
  unfold visit at h
  split_ifs at h with hmem
  · exact { h with
      new := List.cons_subset.mpr ⟨h.marks hmem, h.new⟩
      within := fun hall => h.within (List.cons_subset.mp hall).2 }
  · have hmarks := List.cons_subset.mp h.marks
    have hlen := h.length
    refine ⟨hmarks.2, List.cons_subset.mpr ⟨hmarks.1, h.new⟩,
      fun hnodup => h.nodup (List.nodup_cons.mpr ⟨hmem, hnodup⟩), fun hall hs => ?_,
      fun hwork => h.work (List.cons_subset_cons a hwork), fun b hb hnot => ?_, ?_⟩
    · obtain ⟨ha, has⟩ := List.cons_subset.mp hall
      exact h.within has (List.cons_subset.mpr ⟨ha, hs⟩)
    · obtain ⟨hb, hnot⟩ := h.done b hb hnot
      exact ⟨(List.mem_cons.mp hb).resolve_left (List.ne_of_not_mem_cons hnot),
        List.not_mem_of_not_mem_cons hnot⟩
    · rw [List.length_cons, List.length_cons] at hlen
      omega

theorem foldl_visit (as : List α) (s : List α × List α) : Visits as s (as.foldl visit s) := by
  induction as generalizing s with
  | nil => exact .nil s
  | cons a as ih => exact .cons (ih _)

/-- What a search has marked, apart from what is left to do: its successors are marked as well. The
fuel covers what is left. -/
structure Searching (succ : α → List α) (all : List α) (fuel : ℕ) (marked work : List α) :
    Prop where
  nodup : marked.Nodup
  within : marked ⊆ all
  todo : work ⊆ marked
  done : ∀ a ∈ marked, a ∉ work → succ a ⊆ marked
  fuel : all.length + work.length ≤ fuel + marked.length

/-- **The search marks all successors of what it marks**, and what was marked before. -/
theorem search_closed {succ : α → List α} {fuel : ℕ} {work : List α}
    (hsucc : ∀ a ∈ all, succ a ⊆ all) (h : Searching succ all fuel marked work) :
    marked ⊆ search succ fuel marked work ∧ search succ fuel marked work ⊆ all ∧
    ∀ a ∈ search succ fuel marked work, succ a ⊆ search succ fuel marked work := by
  have hended {fuel : ℕ} {marked : List α} (h : Searching succ all fuel marked []) :
      marked ⊆ marked ∧ marked ⊆ all ∧ ∀ a ∈ marked, succ a ⊆ marked :=
    ⟨List.Subset.refl _, h.within, fun a ha => h.done a ha List.not_mem_nil⟩
  induction fuel generalizing marked work with
  | zero =>
    have hle := length_le h.nodup h.within
    have hfuel := h.fuel
    obtain rfl : work = [] := List.eq_nil_of_length_eq_zero (by omega)
    exact hended h
  | succ fuel ih =>
    cases work with
    | nil => exact hended h
    | cons a work =>
      obtain ⟨hmem, hwork⟩ := List.cons_subset.mp h.todo
      have hv := foldl_visit (succ a) (marked, work)
      have hfuel := h.fuel
      have hlen := hv.length
      rw [List.length_cons] at hfuel
      obtain ⟨hmarks, hin, hclosed⟩ := ih {
        nodup := hv.nodup h.nodup
        within := hv.within (hsucc a (h.within hmem)) h.within
        todo := hv.work hwork
        done := fun b hb hnot => by
          obtain ⟨hold, hdone⟩ := hv.done b hb hnot
          by_cases heq : b = a
          · exact heq ▸ hv.new
          · have hnotin : b ∉ a :: work := List.not_mem_cons_of_ne_of_not_mem heq hdone
            exact List.Subset.trans (h.done b hold hnotin) hv.marks
        fuel := by
          dsimp only at hlen ⊢
          omega }
      exact ⟨List.Subset.trans hv.marks hmarks, hin, hclosed⟩

/-- What is so of the first marks, and passes to successors, is so of all that the search marks. -/
theorem search_sound {P : α → Prop} {succ : α → List α} {fuel : ℕ} {work : List α}
    (hstart : ∀ a ∈ marked, P a) (hwork : work ⊆ marked)
    (hsucc : ∀ a b, P a → b ∈ succ a → P b) : ∀ a ∈ search succ fuel marked work, P a := by
  have hfold (as : List α) (s : List α × List α) (has : ∀ b ∈ as, P b) (h : ∀ b ∈ s.1, P b) :
      ∀ b ∈ (as.foldl visit s).1, P b := by
    induction as generalizing s with
    | nil => exact h
    | cons a as ih =>
      obtain ⟨ha, has⟩ := List.forall_mem_cons.mp has
      refine ih _ has ?_
      unfold visit
      split_ifs
      · exact h
      · exact List.forall_mem_cons.mpr ⟨ha, h⟩
  induction fuel generalizing marked work with
  | zero => exact hstart
  | succ fuel ih =>
    cases work with
    | nil => exact hstart
    | cons a work =>
      obtain ⟨hmem, hwork⟩ := List.cons_subset.mp hwork
      exact ih (hfold (succ a) (marked, work) (fun b => hsucc a b (hstart a hmem)) hstart)
        ((foldl_visit (succ a) (marked, work)).work hwork)

end Marking
