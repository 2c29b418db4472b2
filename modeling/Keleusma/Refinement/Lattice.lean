import Keleusma.Logic.Separated
import Keleusma.Refinement.Interval
import Mathlib.Data.List.Basic

/-!
# The lattice of interval sets

Whatever builds a set, its components are not empty and separated (`Built.normal`), and it holds
the numbers that the operation is named for. Whether one set lies in another is decided component
by component, which misses one kind of inclusion: a component without a bound is not found inside
one whose bound is the extreme number itself (`built_exact`).
-/

namespace Keleusma.Refinement

namespace I64

theorem ext {a b : I64} (h : a.val = b.val) : a = b := by
  cases a
  cases b
  cases h
  rfl

theorem le_iff {a b : I64} : a ≤ b ↔ a.val ≤ b.val := Iff.rfl

theorem not_lt {a b : I64} : ¬ a < b ↔ b ≤ a := Int.not_lt

theorem val_max (a b : I64) : (max a b).val = max a.val b.val := by
  rw [max_def]
  exact apply_ite I64.val (a.val ≤ b.val) b a

theorem val_min (a b : I64) : (min a b).val = min a.val b.val := by
  rw [min_def]
  exact apply_ite I64.val (a.val ≤ b.val) a b

theorem checked_eq_some {v : ℤ} {a : I64} : checked v = some a ↔ v = a.val := by
  have ha := a.property
  rw [checked]
  split_ifs with h
  · rw [Option.some.injEq]
    exact ⟨fun h => h ▸ rfl, fun h => I64.ext h⟩
  · exact iff_of_false nofun fun heq => h (heq ▸ ha)

theorem checked_eq_none {v : ℤ} : checked v = none ↔ v < -2 ^ 63 ∨ 2 ^ 63 ≤ v := by
  rw [checked]
  split_ifs with h
  · exact iff_of_false nofun (by omega)
  · exact iff_of_true rfl (by omega)

end I64

namespace Interval

/-! ## Bounds as numbers -/

/-- The least number of the interval, if it has any. -/
def lower (i : Interval) : ℤ := (i.lo.map (·.val)).getD (-2 ^ 63)

/-- The greatest number of the interval, if it has any. -/
def upper (i : Interval) : ℤ := (i.hi.map (·.val)).getD (2 ^ 63 - 1)

theorem lower_none {hi : Option I64} : lower ⟨none, hi⟩ = -2 ^ 63 := rfl

theorem lower_some {l : I64} {hi : Option I64} : lower ⟨some l, hi⟩ = l.val := rfl

theorem upper_none {lo : Option I64} : upper ⟨lo, none⟩ = 2 ^ 63 - 1 := rfl

theorem upper_some {lo : Option I64} {h : I64} : upper ⟨lo, some h⟩ = h.val := rfl

theorem lower_range (i : Interval) : -2 ^ 63 ≤ i.lower ∧ i.lower < 2 ^ 63 := by
  obtain ⟨_ | l, hi⟩ := i
  · rw [lower_none]
    decide
  · exact l.property

theorem upper_range (i : Interval) : -2 ^ 63 ≤ i.upper ∧ i.upper < 2 ^ 63 := by
  obtain ⟨lo, _ | h⟩ := i
  · rw [upper_none]
    decide
  · exact h.property

theorem isEmpty_iff {i : Interval} : i.isEmpty = true ↔ i.upper < i.lower := by
  obtain ⟨_ | l, _ | h⟩ := i
  · simp [isEmpty, lower_none, upper_none]
  · have := h.property
    simp only [isEmpty, lower_none, upper_some, Bool.false_eq_true, false_iff]
    omega
  · have := l.property
    simp only [isEmpty, lower_some, upper_none, Bool.false_eq_true, false_iff]
    omega
  · exact decide_eq_true_iff

theorem isEmpty_eq_false {i : Interval} : i.isEmpty = false ↔ i.lower ≤ i.upper := by
  rw [← Bool.not_eq_true, isEmpty_iff, not_lt]

theorem contains_iff {i : Interval} {n : I64} :
    i.contains n = true ↔ i.lower ≤ n.val ∧ n.val ≤ i.upper := by
  have hn := n.property
  have hlo : (i.lo.any fun l => decide (n < l)) = true ↔ n.val < i.lower := by
    obtain ⟨_ | l, hi⟩ := i
    · rw [lower_none, Option.any_none]
      exact iff_of_false Bool.false_ne_true (by omega)
    · exact decide_eq_true_iff
  have hhi : (i.hi.any fun h => decide (h < n)) = true ↔ i.upper < n.val := by
    obtain ⟨lo, _ | h⟩ := i
    · rw [upper_none, Option.any_none]
      exact iff_of_false Bool.false_ne_true (by omega)
    · exact decide_eq_true_iff
  rw [contains]
  simp only [hlo, hhi, isEmpty_iff]
  split_ifs with hempty hbelow habove
  · exact iff_of_false id (by omega)
  · exact iff_of_false id (by omega)
  · exact iff_of_false id (by omega)
  · exact iff_of_true rfl (by omega)

theorem mem_iff_of_bounds {i : Interval} {lo hi : ℤ} (hlo : i.lower = lo) (hhi : i.upper = hi)
    {n : I64} : i.contains n = true ↔ lo ≤ n.val ∧ n.val ≤ hi := by
  rw [contains_iff, hlo, hhi]

theorem lower_either {a b : Option I64} {hi hi₁ hi₂ : Option I64} :
    lower ⟨eitherBound max a b, hi⟩ = max (lower ⟨a, hi₁⟩) (lower ⟨b, hi₂⟩) := by
  cases a with
  | none =>
    have hb := (lower_range ⟨b, hi₂⟩).1
    exact (max_eq_right hb).symm
  | some a =>
    cases b with
    | none => exact (max_eq_left a.property.1).symm
    | some b => exact I64.val_max a b

theorem upper_either {a b : Option I64} {lo lo₁ lo₂ : Option I64} :
    upper ⟨lo, eitherBound min a b⟩ = min (upper ⟨lo₁, a⟩) (upper ⟨lo₂, b⟩) := by
  cases a with
  | none =>
    have hb := (upper_range ⟨lo₂, b⟩).2
    exact (min_eq_right (Int.le_sub_one_of_lt hb)).symm
  | some a =>
    cases b with
    | none => exact (min_eq_left (Int.le_sub_one_of_lt a.property.2)).symm
    | some b => exact I64.val_min a b

theorem upper_both {a b : Option I64} {lo lo₁ lo₂ : Option I64} :
    upper ⟨lo, bothBounds max a b⟩ = max (upper ⟨lo₁, a⟩) (upper ⟨lo₂, b⟩) := by
  cases a with
  | none =>
    have hb := (upper_range ⟨lo₂, b⟩).2
    exact (max_eq_left (Int.le_sub_one_of_lt hb)).symm
  | some a =>
    cases b with
    | none => exact (max_eq_right (Int.le_sub_one_of_lt a.property.2)).symm
    | some b => exact I64.val_max a b

theorem contains_eq_false_of_isEmpty {i : Interval} (h : i.isEmpty = true) (n : I64) :
    i.contains n = false := by
  rw [contains, if_pos h]

theorem contains_intersect {i other : Interval} {n : I64} :
    (i.intersect other).contains n = true ↔ i.contains n = true ∧ other.contains n = true := by
  by_cases hempty : i.isEmpty || other.isEmpty
  · rw [intersect, if_pos hempty, contains_eq_false_of_isEmpty rfl]
    refine iff_of_false Bool.false_ne_true ?_
    rintro ⟨hi, ho⟩
    rcases Bool.or_eq_true_iff.mp hempty with h | h
    · rw [contains_eq_false_of_isEmpty h] at hi
      cases hi
    · rw [contains_eq_false_of_isEmpty h] at ho
      cases ho
  · rw [intersect, if_neg hempty]
    have hlo : lower ⟨eitherBound max i.lo other.lo, eitherBound min i.hi other.hi⟩ =
        max i.lower other.lower := lower_either
    have hhi : upper ⟨eitherBound max i.lo other.lo, eitherBound min i.hi other.hi⟩ =
        min i.upper other.upper := upper_either
    rw [contains_iff (i := i), contains_iff (i := other)]
    dsimp only
    generalize eitherBound max i.lo other.lo = lo at *
    generalize eitherBound min i.hi other.hi = hi at *
    have hmem : (Interval.mk lo hi).contains n = true ↔
        (i.lower ≤ n.val ∧ n.val ≤ i.upper) ∧ other.lower ≤ n.val ∧ n.val ≤ other.upper := by
      rw [mem_iff_of_bounds hlo hhi]
      omega
    cases lo with
    | none => exact hmem
    | some l =>
      cases hi with
      | none => exact hmem
      | some h =>
        dsimp only
        split_ifs with hlt
        · have hempty : (Interval.mk (some l) (some h)).isEmpty = true := decide_eq_true hlt
          rw [contains_eq_false_of_isEmpty hempty] at hmem
          exact hmem
        · exact hmem

/-! ## Merging -/

/-- A sorted pair is in the order of its least numbers. -/
theorem lower_le_of_cmpLo {i j : Interval} (h : cmpLo i.lo j.lo ≠ .gt) : i.lower ≤ j.lower := by
  obtain ⟨_ | l, hi⟩ := i
  · exact (lower_range j).1
  · obtain ⟨_ | l', hj⟩ := j
    · exact absurd rfl h
    · exact not_lt.mp fun hlt => h (compare_gt_iff_gt.mpr hlt)

/-- The condition to merge two intervals, the first of which begins first. -/
theorem touches_iff {hi lo : Option I64} {lo₁ hi₂ : Option I64} :
    touches hi lo = true ↔ lower ⟨lo, hi₂⟩ ≤ upper ⟨lo₁, hi⟩ + 1 := by
  cases hi with
  | none =>
    have := (lower_range ⟨lo, hi₂⟩).2
    refine iff_of_true rfl ?_
    rw [upper_none]
    omega
  | some h =>
    cases lo with
    | none =>
      have := h.property.1
      refine iff_of_true rfl ?_
      rw [lower_none, upper_some]
      omega
    | some l =>
      have hadd : (h.checkedAdd ⟨1, by decide⟩ == some l) = true ↔ h.val + 1 = l.val := by
        rw [beq_iff_eq, I64.checkedAdd, I64.checked_eq_some]
      rw [touches, Bool.or_eq_true, hadd, decide_eq_true_iff, I64.le_iff, lower_some, upper_some]
      omega

/-- The interval that two intervals make up, the first of which begins first. -/
theorem joined_bounds {first second : Interval} (hle : first.lower ≤ second.lower) :
    (Interval.mk first.lo (bothBounds max first.hi second.hi)).lower =
        min first.lower second.lower ∧
      (Interval.mk first.lo (bothBounds max first.hi second.hi)).upper =
        max first.upper second.upper :=
  ⟨(min_eq_left hle).symm, upper_both⟩

theorem lower_le_of_cmpLo_gt {i j : Interval} (h : cmpLo i.lo j.lo = .gt) : j.lower ≤ i.lower := by
  obtain ⟨_ | l, hi⟩ := i
  · obtain ⟨_ | l', hj⟩ := j <;> cases h
  · obtain ⟨_ | l', hj⟩ := j
    · exact l.property.1
    · exact le_of_lt (compare_gt_iff_gt.mp h)

/-- **Two intervals merge exactly when no number lies between them**, into the interval from the
lesser beginning to the greater end. -/
theorem mergeIfTouching_spec {a b : Interval} (ha : a.isEmpty = false) (hb : b.isEmpty = false) :
    (∃ j, mergeIfTouching a b = some j ∧ j.lower = min a.lower b.lower ∧
      j.upper = max a.upper b.upper ∧ a.lower ≤ b.upper + 1 ∧ b.lower ≤ a.upper + 1) ∨
    (mergeIfTouching a b = none ∧ (a.upper + 1 < b.lower ∨ b.upper + 1 < a.lower)) := by
  have ha' := isEmpty_eq_false.mp ha
  have hb' := isEmpty_eq_false.mp hb
  rw [mergeIfTouching, ha, hb, if_neg Bool.false_ne_true, if_neg Bool.false_ne_true]
  by_cases hgt : cmpLo a.lo b.lo = .gt
  · have hle := lower_le_of_cmpLo_gt hgt
    obtain ⟨hlo, hhi⟩ := joined_bounds hle
    have htouch : touches b.hi a.lo = true ↔ a.lower ≤ b.upper + 1 := touches_iff
    rw [if_pos hgt]
    dsimp only
    split_ifs with h
    · rw [Bool.not_eq_true', ← Bool.not_eq_true, htouch] at h
      exact .inr ⟨rfl, by omega⟩
    · rw [Bool.not_eq_true', Bool.not_eq_false, htouch] at h
      refine .inl ⟨_, rfl, ?_, ?_, h, by omega⟩
      · rw [hlo, min_comm]
      · rw [hhi, max_comm]
  · have hle := lower_le_of_cmpLo hgt
    obtain ⟨hlo, hhi⟩ := joined_bounds hle
    have htouch : touches a.hi b.lo = true ↔ b.lower ≤ a.upper + 1 := touches_iff
    rw [if_neg hgt]
    dsimp only
    split_ifs with h
    · rw [Bool.not_eq_true', ← Bool.not_eq_true, htouch] at h
      exact .inr ⟨rfl, by omega⟩
    · rw [Bool.not_eq_true', Bool.not_eq_false, htouch] at h
      exact .inl ⟨_, rfl, hlo, hhi, by omega, h⟩

/-! ## Inclusion of intervals -/

/-- A bound that the interval lacks is written out in the other one, as the extreme number. -/
def Hides (i other : Interval) : Prop :=
  (i.lo = none ∧ other.lo = some I64.least) ∨ (i.hi = none ∧ other.hi = some I64.greatest)

instance (i other : Interval) : Decidable (Hides i other) := inferInstanceAs (Decidable (_ ∨ _))

/-- The comparison of two lower bounds. -/
theorem lo_le_iff {i other : Interval} : (match i.lo, other.lo with
      | _, none => true
      | none, some _ => false
      | some s, some o => decide (o ≤ s)) = true ↔
    other.lower ≤ i.lower ∧ ¬ (i.lo = none ∧ other.lo = some I64.least) := by
  obtain ⟨_ | o, ohi⟩ := other
  · rw [lower_none]
    refine iff_of_true ?_ ⟨i.lower_range.1, fun h => nomatch h.2⟩
    obtain ⟨_ | s, hi⟩ := i <;> rfl
  · obtain ⟨_ | s, hi⟩ := i
    · refine iff_of_false Bool.false_ne_true fun ⟨hle, hne⟩ => hne ⟨rfl, congrArg some ?_⟩
      rw [lower_none, lower_some] at hle
      exact I64.ext (le_antisymm hle o.property.1)
    · exact decide_eq_true_iff.trans (iff_self_and.mpr fun _ h => nomatch h.1)

/-- The comparison of two upper bounds. -/
theorem hi_le_iff {i other : Interval} : (match i.hi, other.hi with
      | _, none => true
      | none, some _ => false
      | some s, some o => decide (s ≤ o)) = true ↔
    i.upper ≤ other.upper ∧ ¬ (i.hi = none ∧ other.hi = some I64.greatest) := by
  obtain ⟨olo, _ | o⟩ := other
  · have hlt := i.upper_range.2
    rw [upper_none]
    refine iff_of_true ?_ ⟨by omega, fun h => nomatch h.2⟩
    obtain ⟨lo, _ | s⟩ := i <;> rfl
  · obtain ⟨lo, _ | s⟩ := i
    · refine iff_of_false Bool.false_ne_true fun ⟨hle, hne⟩ => hne ⟨rfl, congrArg some ?_⟩
      rw [upper_none, upper_some] at hle
      exact I64.ext (le_antisymm (Int.le_sub_one_of_lt o.property.2) hle)
    · exact decide_eq_true_iff.trans (iff_self_and.mpr fun _ h => nomatch h.1)

/-- **What the inclusion of intervals tests.** -/
theorem isSubsetOf_iff {i other : Interval} (hi : i.isEmpty = false) (ho : other.isEmpty = false) :
    i.isSubsetOf other = true ↔
      (other.lower ≤ i.lower ∧ i.upper ≤ other.upper) ∧ ¬ Hides i other := by
  rw [isSubsetOf, hi, ho, if_neg Bool.false_ne_true, if_neg Bool.false_ne_true]
  refine (Bool.and_eq_true_iff.trans (and_congr lo_le_iff hi_le_iff)).trans ?_
  rw [Hides, not_or]
  tauto

end Interval

namespace IntervalSet

open Keleusma.Refinement.Interval

/-! ## Normal lists -/

/-- Some interval of the list contains the number. -/
def Covers (l : List Interval) (n : I64) : Prop := ∃ i ∈ l, i.contains n = true

theorem contains_iff_covers {s : IntervalSet} {n : I64} :
    s.contains n = true ↔ Covers s.intervals n := List.any_eq_true

/-- **A normal list**: no interval is empty, and each ends before the next one begins, with a
number between them. -/
structure Normal (l : List Interval) : Prop where
  nonempty : ∀ i ∈ l, i.isEmpty = false
  separated : Separated lower upper l

theorem Normal.nil : Normal [] := ⟨fun _ h => absurd h List.not_mem_nil, .nil⟩

theorem Normal.singleton {i : Interval} (h : i.isEmpty = false) : Normal [i] := by
  refine ⟨fun j hj => ?_, .singleton i⟩
  rwa [List.mem_singleton.mp hj]

theorem covers_append {l l' : List Interval} {n : I64} :
    Covers (l ++ l') n ↔ Covers l n ∨ Covers l' n := by
  simp only [Covers, List.mem_append, or_and_right, exists_or]

theorem covers_cons {i : Interval} {l : List Interval} {n : I64} :
    Covers (i :: l) n ↔ i.contains n = true ∨ Covers l n := by
  simp only [Covers, List.mem_cons, exists_eq_or_imp]

theorem not_covers_nil {n : I64} : ¬ Covers [] n := fun ⟨_, h, _⟩ => absurd h List.not_mem_nil

/-- **Merging one more interval** keeps a list normal and adds the numbers of the interval. -/
theorem pushMerged_spec {l : List Interval} {i : Interval} (hl : Normal l)
    (hi : i.isEmpty = false) (hle : ∀ j ∈ l, j.lower ≤ i.lower) :
    Normal (pushMerged l i) ∧ (∀ n, Covers (pushMerged l i) n ↔ Covers l n ∨ i.contains n = true) ∧
      ∀ j ∈ pushMerged l i, j.lower ≤ i.lower := by
  have hi' := isEmpty_eq_false.mp hi
  rcases List.eq_nil_or_concat' l with rfl | ⟨init, last, rfl⟩
  · refine ⟨.singleton hi, fun n => covers_cons.trans or_comm, fun j hj => ?_⟩
    rw [List.mem_singleton.mp hj]
  rw [pushMerged, List.getLast?_concat, Option.bind_some, List.dropLast_concat]
  have hlast := hl.nonempty last (List.mem_append_right _ (List.mem_singleton_self _))
  have hlast' := isEmpty_eq_false.mp hlast
  have hlower := hle last (List.mem_append_right _ (List.mem_singleton_self _))
  obtain ⟨hsep, hbefore⟩ := hl.separated.of_snoc
  have hinit (j : Interval) (hj : j ∈ init) : j.isEmpty = false ∧ j.lower ≤ i.lower :=
    ⟨hl.nonempty j (List.mem_append_left _ hj), hle j (List.mem_append_left _ hj)⟩
  rcases mergeIfTouching_spec hlast hi with ⟨joined, hjoin, hlo, hhi, -, htouch⟩ | ⟨hnone, hapart⟩
  · -- The last interval grows up to the end of the new one.
    have hjoined : joined.lower = last.lower := by omega
    rw [hjoin]
    refine ⟨⟨fun j hj => ?_, hsep.snoc fun j hj => ?_⟩, fun n => ?_, fun j hj => ?_⟩
    · rcases List.mem_append.mp hj with hj | hj
      · exact (hinit j hj).1
      · rw [List.mem_singleton.mp hj, isEmpty_eq_false]
        omega
    · rw [hjoined]
      exact hbefore j hj
    · rw [covers_append, covers_append, covers_cons, covers_cons, contains_iff, contains_iff,
        contains_iff]
      have hrest := not_covers_nil (n := n)
      by_cases hc : Covers init n
      · exact iff_of_true (.inl hc) (.inl (.inl hc))
      · simp only [hc, hrest, false_or, or_false]
        omega
    · rcases List.mem_append.mp hj with hj | hj
      · exact (hinit j hj).2
      · rw [List.mem_singleton.mp hj, hjoined]
        exact hlower
  · rw [hnone]
    have hafter : last.upper + 1 < i.lower := by omega
    refine ⟨⟨fun j hj => ?_, hl.separated.snoc fun j hj => ?_⟩, fun n => ?_, fun j hj => ?_⟩
    · rcases List.mem_append.mp hj with hj | hj
      · exact hl.nonempty j hj
      · rwa [List.mem_singleton.mp hj]
    · rcases List.mem_append.mp hj with hj | hj
      · have := hbefore j hj
        omega
      · rwa [List.mem_singleton.mp hj]
    · rw [covers_append, covers_cons]
      simp only [not_covers_nil, or_false]
    · rcases List.mem_append.mp hj with hj | hj
      · exact hle j hj
      · rw [List.mem_singleton.mp hj]

/-- Merging sorted intervals, by induction on those that are left. -/
theorem foldl_pushMerged {v l : List Interval} (hl : Normal l)
    (hv : ∀ i ∈ v, i.isEmpty = false) (hsorted : v.Pairwise fun i j => i.lower ≤ j.lower)
    (hle : ∀ i ∈ v, ∀ j ∈ l, j.lower ≤ i.lower) :
    Normal (v.foldl pushMerged l) ∧
      ∀ n, Covers (v.foldl pushMerged l) n ↔ Covers l n ∨ Covers v n := by
  induction v generalizing l with
  | nil => exact ⟨hl, fun n => by simp [not_covers_nil]⟩
  | cons i v ih =>
    obtain ⟨hfirst, hrest⟩ := List.pairwise_cons.mp hsorted
    obtain ⟨hi, hv⟩ := List.forall_mem_cons.mp hv
    obtain ⟨hnormal, hcovers, hlower⟩ := pushMerged_spec hl hi (hle i List.mem_cons_self)
    obtain ⟨hnormal', hcovers'⟩ := ih hnormal hv hrest fun k hk j hj =>
      (hlower j hj).trans (hfirst k hk)
    refine ⟨hnormal', fun n => ?_⟩
    rw [List.foldl_cons, hcovers', hcovers, covers_cons, or_assoc]

/-! ## Normalising -/

theorem cmpLo_trans {a b c : Option I64} (hab : (cmpLo a b != .gt) = true)
    (hbc : (cmpLo b c != .gt) = true) : (cmpLo a c != .gt) = true := by
  rw [bne_iff_ne] at hab hbc ⊢
  cases a with
  | none => cases c <;> exact nofun
  | some a =>
    cases b with
    | none => exact absurd rfl hab
    | some b =>
      cases c with
      | none => exact absurd rfl hbc
      | some c =>
        have hle : a.val ≤ b.val := not_lt.mp fun h => hab (compare_gt_iff_gt.mpr h)
        have hle' : b.val ≤ c.val := not_lt.mp fun h => hbc (compare_gt_iff_gt.mpr h)
        exact fun h => absurd (compare_gt_iff_gt.mp h) (not_lt.mpr (hle.trans hle'))

theorem cmpLo_total (a b : Option I64) : (cmpLo a b != .gt || cmpLo b a != .gt) = true := by
  rw [Bool.or_eq_true, bne_iff_ne, bne_iff_ne]
  cases a with
  | none => exact .inl (by cases b <;> exact nofun)
  | some a =>
    cases b with
    | none => exact .inr nofun
    | some b =>
      rcases le_total a.val b.val with h | h
      · exact .inl fun hgt => absurd (compare_gt_iff_gt.mp hgt) (not_lt.mpr h)
      · exact .inr fun hgt => absurd (compare_gt_iff_gt.mp hgt) (not_lt.mpr h)

/-- **What normalising does**: the list is normal and contains the numbers of the intervals. -/
theorem fromIntervals_spec (v : List Interval) : Normal (fromIntervals v).intervals ∧
    ∀ n, (fromIntervals v).contains n = true ↔ Covers v n := by
  have hmem {i : Interval} : i ∈ (v.filter fun i => !i.isEmpty).mergeSort
      (fun a b => cmpLo a.lo b.lo != .gt) ↔ i ∈ v ∧ i.isEmpty = false := by
    rw [List.mem_mergeSort, List.mem_filter, Bool.not_eq_true']
  have hsorted : ((v.filter fun i => !i.isEmpty).mergeSort
      fun a b => cmpLo a.lo b.lo != .gt).Pairwise
      fun a b : Interval => cmpLo a.lo b.lo != .gt := by
    apply List.pairwise_mergeSort
    · exact fun a b c => cmpLo_trans
    · exact fun a b => cmpLo_total a.lo b.lo
  obtain ⟨hnormal, hcovers⟩ := foldl_pushMerged .nil (fun i hi => (hmem.mp hi).2)
    (hsorted.imp fun h => lower_le_of_cmpLo (bne_iff_ne.mp h))
    fun _ _ _ h => absurd h List.not_mem_nil
  refine ⟨hnormal, fun n => contains_iff_covers.trans ((hcovers n).trans ?_)⟩
  simp only [not_covers_nil, false_or]
  constructor
  · rintro ⟨i, hi, hc⟩
    exact ⟨i, (hmem.mp hi).1, hc⟩
  · rintro ⟨i, hi, hc⟩
    refine ⟨i, hmem.mpr ⟨hi, ?_⟩, hc⟩
    rw [isEmpty_eq_false]
    rw [contains_iff] at hc
    omega

/-! ## The complement -/

/-- The walk has passed a component, and the next gap starts at the number. -/
def Behind (w : GapWalk) (next : ℤ) : Prop :=
  (w.finished = true ∧ next = 2 ^ 63) ∨
    ∃ c, w.finished = false ∧ w.atNegInfinity = false ∧ w.cursor = some c ∧ next = c.val

/-- The next gap of the walk starts at the number. -/
def StartsAt (w : GapWalk) (next : ℤ) : Prop :=
  (w.finished = false ∧ w.atNegInfinity = true ∧ next = -2 ^ 63) ∨ Behind w next

/-- The gap before a component holds the numbers from its start up to the component. -/
theorem covers_gap {w : GapWalk} {next : ℤ} {i : Interval} (h : StartsAt w next)
    (hle : next ≤ i.lower) {n : I64} :
    Covers (w.gap i.lo) n ↔ next ≤ n.val ∧ n.val < i.lower := by
  have hn := n.property
  have hlt := i.lower_range
  obtain ⟨parts, cursor, atNegInfinity, finished⟩ := w
  obtain ⟨lo, hi⟩ := i
  rcases h with ⟨-, hneg, rfl⟩ | ⟨-, rfl⟩ | ⟨c, -, hneg, hcursor, rfl⟩
  · dsimp only at hneg
    subst hneg
    cases lo with
    | none =>
      rw [lower_none]
      exact iff_of_false not_covers_nil (by omega)
    | some l =>
      have hrange := l.property
      simp only [lower_some, GapWalk.gap]
      cases hl : I64.checked (l.val - 1) with
      | none =>
        rw [I64.checked_eq_none] at hl
        exact iff_of_false not_covers_nil (by omega)
      | some h =>
        rw [I64.checked_eq_some] at hl
        rw [Option.map_some, Option.toList_some, covers_cons, contains_iff, atMost, lower_none,
          upper_some]
        simp only [not_covers_nil, or_false]
        omega
  · exact absurd hle (not_le.mpr hlt.2)
  · dsimp only at hneg hcursor
    subst hneg hcursor
    cases lo with
    | none =>
      rw [lower_none]
      exact iff_of_false not_covers_nil (by omega)
    | some l =>
      have hrange := l.property
      simp only [lower_some, GapWalk.gap]
      cases hl : I64.checked (l.val - 1) with
      | none =>
        rw [I64.checked_eq_none] at hl
        have := c.property
        exact iff_of_false not_covers_nil (by omega)
      | some h =>
        rw [I64.checked_eq_some] at hl
        dsimp only
        split_ifs with hch
        · rw [covers_cons, range, if_neg (I64.not_lt.mpr hch), contains_iff, lower_some, upper_some]
          simp only [not_covers_nil, or_false]
          omega
        · rw [I64.le_iff] at hch
          exact iff_of_false not_covers_nil (by omega)

/-- **Passing a component** emits the gap before it. -/
theorem pass_spec {w : GapWalk} {next : ℤ} {i : Interval} (h : StartsAt w next)
    (hle : next ≤ i.lower) : Behind (w.pass i) (i.upper + 1) ∧
      ∀ n, Covers (w.pass i).parts n ↔ Covers w.parts n ∨ next ≤ n.val ∧ n.val < i.lower := by
  have hlt := i.lower_range
  have hfinished : w.finished = false := by
    rcases h with ⟨hf, -⟩ | ⟨-, rfl⟩ | ⟨-, hf, -⟩
    · exact hf
    · exact absurd hle (not_le.mpr hlt.2)
    · exact hf
  have hgap {n : I64} : Covers (w.parts ++ w.gap i.lo) n ↔ _ :=
    covers_append.trans (or_congr_right (covers_gap h hle))
  rw [GapWalk.pass, hfinished, if_neg Bool.false_ne_true]
  obtain ⟨lo, _ | hi⟩ := i
  · exact ⟨.inl ⟨rfl, by rw [upper_none]; omega⟩, fun n => hgap⟩
  · rw [Option.bind_some]
    cases hnext : hi.checkedAdd ⟨1, by decide⟩ with
    | none =>
      have hnext : hi.val + 1 < -2 ^ 63 ∨ 2 ^ 63 ≤ hi.val + 1 := I64.checked_eq_none.mp hnext
      have := hi.property
      exact ⟨.inl ⟨rfl, by rw [upper_some]; omega⟩, fun n => hgap⟩
    | some c =>
      exact ⟨.inr ⟨c, rfl, rfl, rfl, I64.checked_eq_some.mp hnext⟩, fun n => hgap⟩

/-- The walk over normal components, by induction on those that are left. -/
theorem foldl_pass {l : List Interval} {w : GapWalk} {next : ℤ} (hl : Normal l)
    (h : StartsAt w next) (hle : ∀ i ∈ l, next ≤ i.lower) (hne : l ≠ [] ∨ Behind w next) :
    ∃ stop, Behind (l.foldl GapWalk.pass w) stop ∧ ∀ n : I64,
      Covers (l.foldl GapWalk.pass w).parts n ∨ stop ≤ n.val ↔
        Covers w.parts n ∨ next ≤ n.val ∧ ¬ Covers l n := by
  induction l generalizing w next with
  | nil =>
    refine ⟨next, hne.resolve_left (fun h => h rfl), fun n => ?_⟩
    simp only [List.foldl_nil, not_covers_nil, not_false_eq_true, and_true]
  | cons i l ih =>
    obtain ⟨hi, hrest⟩ := List.forall_mem_cons.mp hl.nonempty
    obtain ⟨hafter, hsep⟩ := List.pairwise_cons.mp hl.separated
    have hi' := isEmpty_eq_false.mp hi
    obtain ⟨hbehind, hparts⟩ := pass_spec h (hle i List.mem_cons_self)
    obtain ⟨stop, hstop, hcovers⟩ := ih ⟨hrest, hsep⟩ (.inr hbehind)
      (fun j hj => (hafter j hj).le) (.inr hbehind)
    refine ⟨stop, hstop, fun n => ?_⟩
    have hnext := hle i List.mem_cons_self
    -- What comes after the component has no number up to its end.
    have hlater : Covers l n → i.upper < n.val := by
      rintro ⟨j, hj, hc⟩
      have := hafter j hj
      rw [contains_iff] at hc
      omega
    rw [List.foldl_cons, hcovers n, hparts n, covers_cons, contains_iff]
    by_cases hc : Covers l n
    · have := hlater hc
      simp only [hc, not_true_eq_false, and_false, or_true, or_false]
      exact ⟨fun h => h.resolve_right (by omega), .inl⟩
    · simp only [hc, not_false_eq_true, and_true, or_false]
      rw [or_assoc]
      exact or_congr_right (by omega)

theorem complement_spec {s : IntervalSet} (hs : Normal s.intervals) :
    Normal s.complement.intervals ∧
      ∀ n, s.complement.contains n = true ↔ ¬ s.contains n = true := by
  rw [complement]
  split_ifs with hempty
  · rw [List.isEmpty_iff] at hempty
    refine ⟨.singleton rfl, fun n => ?_⟩
    rw [contains_iff_covers, contains_iff_covers, hempty]
    refine iff_of_true (covers_cons.mpr (.inl rfl)) not_covers_nil
  · rw [List.isEmpty_iff] at hempty
    obtain ⟨hnormal, hcovers⟩ :=
      fromIntervals_spec (s.intervals.foldl GapWalk.pass ⟨[], none, true, false⟩).gaps
    obtain ⟨stop, hstop, hwalk⟩ := foldl_pass (w := ⟨[], none, true, false⟩) hs
      (.inl ⟨rfl, rfl, rfl⟩) (fun i _ => i.lower_range.1) (.inl hempty)
    refine ⟨hnormal, fun n => ?_⟩
    have hn := n.property
    have hgaps : Covers (s.intervals.foldl GapWalk.pass ⟨[], none, true, false⟩).gaps n ↔
        Covers (s.intervals.foldl GapWalk.pass ⟨[], none, true, false⟩).parts n ∨ stop ≤ n.val := by
      generalize s.intervals.foldl GapWalk.pass ⟨[], none, true, false⟩ = w at hstop ⊢
      rcases hstop with ⟨hf, rfl⟩ | ⟨c, hf, -, hcursor, rfl⟩
      · rw [GapWalk.gaps, hf]
        exact ⟨.inl, fun h => h.resolve_right (by omega)⟩
      · rw [GapWalk.gaps, hf, hcursor]
        dsimp only
        rw [covers_append, covers_cons, contains_iff, atLeast, lower_some, upper_none]
        simp only [not_covers_nil, or_false]
        exact or_congr_right (by omega)
    rw [hcovers, hgaps, hwalk, contains_iff_covers]
    simp only [not_covers_nil, false_or]
    exact and_iff_right (by omega)

/-! ## The operations -/

theorem intersect_spec (s t : IntervalSet) : Normal (s.intersect t).intervals ∧
    ∀ n, (s.intersect t).contains n = true ↔ s.contains n = true ∧ t.contains n = true := by
  obtain ⟨hnormal, hcovers⟩ := fromIntervals_spec (s.intervals.flatMap fun a =>
    (t.intervals.map fun b => a.intersect b).filter fun p => !p.isEmpty)
  refine ⟨hnormal, fun n => (hcovers n).trans ?_⟩
  rw [contains_iff_covers, contains_iff_covers]
  constructor
  · rintro ⟨p, hp, hc⟩
    obtain ⟨a, ha, hp⟩ := List.mem_flatMap.mp hp
    obtain ⟨b, hb, rfl⟩ := List.mem_map.mp (List.mem_filter.mp hp).1
    obtain ⟨hca, hcb⟩ := contains_intersect.mp hc
    exact ⟨⟨a, ha, hca⟩, b, hb, hcb⟩
  · rintro ⟨⟨a, ha, hca⟩, b, hb, hcb⟩
    have hc := contains_intersect.mpr ⟨hca, hcb⟩
    refine ⟨a.intersect b, List.mem_flatMap.mpr ⟨a, ha, List.mem_filter.mpr
      ⟨List.mem_map_of_mem hb, ?_⟩⟩, hc⟩
    rw [Bool.not_eq_true', isEmpty_eq_false]
    rw [contains_iff] at hc
    omega

theorem union_spec (s t : IntervalSet) : Normal (s.union t).intervals ∧
    ∀ n, (s.union t).contains n = true ↔ s.contains n = true ∨ t.contains n = true := by
  obtain ⟨hnormal, hcovers⟩ := fromIntervals_spec (s.intervals ++ t.intervals)
  refine ⟨hnormal, fun n => (hcovers n).trans ?_⟩
  rw [contains_iff_covers, contains_iff_covers]
  exact covers_append

theorem fromInterval_normal (i : Interval) : Normal (fromInterval i).intervals := by
  rw [fromInterval]
  split_ifs with h
  · exact .nil
  · exact .singleton (Bool.not_eq_true _ ▸ h)

/-- **Every set that is built is normal.** -/
theorem Built.normal {s : IntervalSet} (h : Built s) : Normal s.intervals := by
  induction h with
  | empty => exact .nil
  | full => exact .singleton rfl
  | singleton n => exact .singleton (isEmpty_eq_false.mpr le_rfl)
  | fromInterval i => exact fromInterval_normal i
  | complement hs ih => exact (complement_spec ih).1
  | widen hs ht => exact fromInterval_normal _
  | _ => exact (fromIntervals_spec _).1

/-! ## Inclusion -/

theorem isSubsetOf_iff_forall {s t : IntervalSet} : s.isSubsetOf t = true ↔
    ∀ i ∈ s.intervals, ∃ j ∈ t.intervals, i.isSubsetOf j = true := by
  rw [isSubsetOf]
  split_ifs with hempty
  · rw [isEmpty, List.isEmpty_iff] at hempty
    rw [hempty]
    exact iff_of_true rfl fun i hi => absurd hi List.not_mem_nil
  · simp only [List.all_eq_true, List.any_eq_true]

/-- **Inclusion** is found exactly when it holds and no bound that is missing on one side is
written out on the other. -/
theorem isSubsetOf_iff {s t : IntervalSet} (hs : Normal s.intervals) (ht : Normal t.intervals) :
    s.isSubsetOf t = true ↔ (∀ n, s.contains n = true → t.contains n = true) ∧
      ¬ ∃ i ∈ s.intervals, ∃ j ∈ t.intervals, Hides i j := by
  rw [isSubsetOf_iff_forall]
  constructor
  · intro h
    have hsub (i : Interval) (hi : i ∈ s.intervals) : ∃ j ∈ t.intervals,
        (j.lower ≤ i.lower ∧ i.upper ≤ j.upper) ∧ ¬ Hides i j := by
      obtain ⟨j, hj, hij⟩ := h i hi
      exact ⟨j, hj, (Interval.isSubsetOf_iff (hs.nonempty i hi) (ht.nonempty j hj)).mp hij⟩
    constructor
    · intro n hn
      obtain ⟨i, hi, hc⟩ := contains_iff_covers.mp hn
      obtain ⟨j, hj, hbounds, -⟩ := hsub i hi
      refine contains_iff_covers.mpr ⟨j, hj, ?_⟩
      rw [contains_iff] at hc ⊢
      omega
    · rintro ⟨i, hi, j, hj, hhides⟩
      obtain ⟨k, hk, hbounds, hnot⟩ := hsub i hi
      -- The component that hides the bound is the one that holds the interval.
      have hkj : k = j := by
        have hkr := k.upper_range
        have hkr' := k.lower_range
        have hjr := j.upper_range
        have hjr' := j.lower_range
        have hbound : (i.lower = -2 ^ 63 ∧ j.lower = -2 ^ 63) ∨
            (i.upper = 2 ^ 63 - 1 ∧ j.upper = 2 ^ 63 - 1) := by
          refine hhides.imp (fun ⟨h₁, h₂⟩ => ?_) fun ⟨h₁, h₂⟩ => ?_
          · rw [lower, lower, h₁, h₂]
            exact ⟨rfl, rfl⟩
          · rw [upper, upper, h₁, h₂]
            exact ⟨rfl, rfl⟩
        rcases ht.separated.eq_or_apart hk hj with heq | hapart | hapart
        · exact heq
        · omega
        · omega
      rw [hkj] at hnot
      exact hnot hhides
  · rintro ⟨hsub, hnot⟩ i hi
    have hi' := isEmpty_eq_false.mp (hs.nonempty i hi)
    have hlow := i.lower_range
    have hupp := i.upper_range
    obtain ⟨j, hj, hbounds⟩ := ht.separated.exists_of_covered hi' fun n hlo hhi => by
      have hn : -2 ^ 63 ≤ n ∧ n < 2 ^ 63 := by omega
      obtain ⟨j, hj, hc⟩ := contains_iff_covers.mp (hsub ⟨n, hn⟩
        (contains_iff_covers.mpr ⟨i, hi, contains_iff.mpr ⟨hlo, hhi⟩⟩))
      exact ⟨j, hj, contains_iff.mp hc⟩
    exact ⟨j, hj, (Interval.isSubsetOf_iff (hs.nonempty i hi) (ht.nonempty j hj)).mpr
      ⟨hbounds, fun hhides => hnot ⟨i, hi, j, hj, hhides⟩⟩⟩

/-- **The operations on built sets are exact**, and the test of inclusion is, except where it is
asked for an inclusion that holds between a component without a bound and one that writes the
extreme number as this bound. -/
theorem built_exact {s t : IntervalSet} (hs : Built s) (ht : Built t) :
    (Normal s.intervals ∧ Normal t.intervals) ∧
      (∀ n, (s.intersect t).contains n = (s.contains n && t.contains n)) ∧
      (∀ n, (s.union t).contains n = (s.contains n || t.contains n)) ∧
      (∀ n, s.complement.contains n = !s.contains n) ∧
      ((s.isSubsetOf t = true ↔ ∀ n, s.contains n = true → t.contains n = true) ↔
        ¬ ((∀ n, s.contains n = true → t.contains n = true) ∧
          ∃ i ∈ s.intervals, ∃ j ∈ t.intervals, Hides i j)) := by
  refine ⟨⟨hs.normal, ht.normal⟩, fun n => ?_, fun n => ?_, fun n => ?_, ?_⟩
  · rw [Bool.eq_iff_iff, (intersect_spec s t).2 n, Bool.and_eq_true]
  · rw [Bool.eq_iff_iff, (union_spec s t).2 n, Bool.or_eq_true]
  · rw [Bool.eq_iff_iff, (complement_spec hs.normal).2 n, Bool.not_eq_true']
    exact Bool.not_eq_true _ ▸ Iff.rfl
  · rw [isSubsetOf_iff hs.normal ht.normal, and_iff_left_iff_imp, not_and]

/-- The numbers below zero and those above a hundred. -/
def outside : IntervalSet :=
  fromIntervals [.atMost ⟨-1, by decide⟩, .atLeast ⟨101, by decide⟩]

/-- What lies between is in the complement. -/
theorem outside_exact :
    outside.complement.contains ⟨50, by decide⟩ = !outside.contains ⟨50, by decide⟩ :=
  (built_exact (.fromIntervals _) .full).2.2.2.1 _

/-- All numbers, with the extreme ones written out. -/
def allNumbers : IntervalSet := fromInterval (.range I64.least I64.greatest)

/-- Every number lies in the set of all numbers, but the test does not find the full set in it. -/
theorem full_not_found : ¬ ∀ s t : IntervalSet, Built s → Built t →
    (s.isSubsetOf t = true ↔ ∀ n, s.contains n = true → t.contains n = true) := by
  intro h
  have hiff := h full allNumbers .full (.fromInterval _)
  have hall (n : I64) : allNumbers.contains n = true :=
    contains_iff_covers.mpr ⟨_, List.mem_singleton_self _, contains_iff.mpr
      ⟨n.property.1, Int.le_sub_one_of_lt n.property.2⟩⟩
  exact Bool.false_ne_true (hiff.mpr fun n _ => hall n)

end IntervalSet

end Keleusma.Refinement
