import Keleusma.Logic.Outcomes
import Mathlib.Data.List.Forall2

/-!
# Runs

A list that is stored as runs: each record stands for a piece of the list, and the pieces follow
one another (`InRow`). A reader that makes a piece out of every record gets the list back
(`read_flatten_iff`), and the record of an index is found by binary search over the indices at which
the records start (`searchLast_of`).
-/

namespace Runs

open Outcomes

variable {α ρ : Type} {Stands : ℕ → ρ → List α → Prop} {i k : ℕ} {rs : List ρ} {ps : List (List α)}

/-! ## Records in a row -/

/-- Every record stands for a piece, and the pieces follow one another, the first from `i` on. -/
inductive InRow (Stands : ℕ → ρ → List α → Prop) : ℕ → List ρ → List (List α) → Prop
  | nil (i : ℕ) : InRow Stands i [] []
  | cons {i : ℕ} {r : ρ} {p : List α} {rs : List ρ} {ps : List (List α)} :
      Stands i r p → InRow Stands (i + p.length) rs ps → InRow Stands i (r :: rs) (p :: ps)

theorem InRow.append {rs' : List ρ} {ps' : List (List α)} (h : InRow Stands i rs ps)
    (h' : InRow Stands (i + ps.flatten.length) rs' ps') :
    InRow Stands i (rs ++ rs') (ps ++ ps') := by
  induction h with
  | nil i =>
    rw [List.flatten_nil, List.length_nil, Nat.add_zero] at h'
    exact h'
  | cons hr _ ih =>
    refine .cons hr (ih ?_)
    rwa [List.flatten_cons, List.length_append, ← Nat.add_assoc] at h'

theorem InRow.forall₂ {R : ρ → List α → Prop} (h : InRow Stands i rs ps)
    (hR : ∀ i r p, Stands i r p → R r p) : List.Forall₂ R rs ps := by
  induction h with
  | nil => exact .nil
  | cons hr _ ih => exact .cons (hR _ _ _ hr) ih

/-- What holds of every piece holds beside what the records stand for. -/
theorem InRow.and_mem {P : List α → Prop} (h : InRow Stands i rs ps) (hP : ∀ p ∈ ps, P p) :
    InRow (fun j r p => Stands j r p ∧ P p) i rs ps := by
  induction h with
  | nil i => exact .nil i
  | cons hr _ ih =>
    exact .cons ⟨hr, hP _ List.mem_cons_self⟩ (ih fun p hp => hP p (List.mem_cons_of_mem _ hp))

/-- A record's piece lies inside the list. -/
theorem InRow.bounds {m : ℕ} {r : ρ} (h : InRow Stands i rs ps) (hr : rs[m]? = some r) :
    ∃ j p, Stands j r p ∧ i ≤ j ∧ j + p.length ≤ i + ps.flatten.length := by
  induction h generalizing m with
  | nil => cases hr
  | @cons i r' p rs ps hfirst _ ih =>
    rw [List.flatten_cons, List.length_append]
    cases m with
    | zero =>
      obtain rfl := Option.some.inj hr
      exact ⟨i, p, hfirst, Nat.le_refl i, by omega⟩
    | succ m =>
      obtain ⟨j, q, hstands, hle, hend⟩ := ih hr
      exact ⟨j, q, hstands, by omega, by omega⟩

/-- **Every index falls into the piece of one record**: the records up to it start at the index or
before, the later ones after it. -/
theorem InRow.find (h : InRow Stands i rs ps) (hle : i ≤ k) (hlt : k < i + ps.flatten.length) :
    ∃ (m : ℕ) (r : ρ) (j : ℕ) (p : List α), rs[m]? = some r ∧ Stands j r p ∧ j ≤ k ∧
      k < j + p.length ∧ ps.flatten[k - i]? = p[k - j]? ∧ ∀ m' r', rs[m']? = some r' → ∃ j' p', Stands j' r' p' ∧
        j' + p'.length ≤ i + ps.flatten.length ∧ (m' ≤ m → j' ≤ k) ∧ (m < m' → k < j') := by
  induction h with
  | nil => exact absurd hlt (by rw [List.flatten_nil, List.length_nil]; omega)
  | @cons i r p rs ps hfirst hrest ih =>
    rw [List.flatten_cons, List.length_append] at hlt ⊢
    by_cases hin : k < i + p.length
    · refine ⟨0, r, i, p, rfl, hfirst, hle, hin, List.getElem?_append_left (by omega), ?_⟩
      intro m' r' hr'
      cases m' with
      | zero =>
        obtain rfl := Option.some.inj hr'
        exact ⟨i, p, hfirst, by omega, fun _ => hle, fun h => absurd h (Nat.lt_irrefl 0)⟩
      | succ m' =>
        obtain ⟨j', p', hstands, hstart, hend⟩ := hrest.bounds hr'
        exact ⟨j', p', hstands, by omega, fun h => absurd h (by omega), fun _ => by omega⟩
    · obtain ⟨m, r', j, q, hr', hstands, hj, hlast, hget, hall⟩ := ih (by omega) (by omega)
      refine ⟨m + 1, r', j, q, hr', hstands, hj, hlast, ?_, ?_⟩
      · rw [List.getElem?_append_right (by omega), ← hget]
        exact congrArg (ps.flatten[·]?) (by omega)
      · intro m' r'' hr''
        cases m' with
        | zero =>
          obtain rfl := Option.some.inj hr''
          exact ⟨i, p, hfirst, by omega, fun _ => hle, fun h => absurd h (by omega)⟩
        | succ m' =>
          obtain ⟨j', p', hstands', hend', hbefore, hafter⟩ := hall m' r'' hr''
          exact ⟨j', p', hstands', by omega, fun h => hbefore (by omega),
            fun h => hafter (by omega)⟩

/-! ## Readers -/

section Readers

variable {β ε : Type}

theorem mapM_eq_ok_iff {f : ρ → Except ε β} {ys : List β} :
    rs.mapM f = .ok ys ↔ List.Forall₂ (fun r y => f r = .ok y) rs ys := by
  induction rs generalizing ys with
  | nil =>
    rw [List.mapM_nil, pure_eq_ok_iff, List.forall₂_nil_left_iff]
    exact eq_comm
  | cons r rs ih =>
    rw [List.mapM_cons, bind_eq_ok_iff, List.forall₂_cons_left_iff]
    constructor
    · rintro ⟨y, hy, h⟩
      obtain ⟨zs, hzs, h⟩ := bind_eq_ok_iff.mp h
      exact ⟨y, zs, hy, ih.mp hzs, (pure_eq_ok_iff.mp h).symm⟩
    · rintro ⟨y, zs, hy, hzs, rfl⟩
      exact ⟨y, hy, bind_eq_ok_iff.mpr ⟨zs, ih.mpr hzs, rfl⟩⟩

/-- Reading index by index reads the records in their order. -/
theorem mapM_range_eq_ok_iff {f : ℕ → Except ε β} {g : ρ → Except ε β}
    (hf : ∀ i r, rs[i]? = some r → f i = g r) {ys : List β} :
    (List.range rs.length).mapM f = .ok ys ↔ List.Forall₂ (fun r y => g r = .ok y) rs ys := by
  rw [mapM_eq_ok_iff, List.forall₂_iff_get, List.forall₂_iff_get]
  refine and_congr (by rw [List.length_range]) (forall_congr' fun i => ?_)
  constructor
  · intro h hi hi'
    have hfi := h (by rwa [List.length_range]) hi'
    rwa [List.get_eq_getElem, List.getElem_range, hf i _ (List.getElem?_eq_getElem hi)] at hfi
  · intro h hi hi'
    rw [List.length_range] at hi
    rw [List.get_eq_getElem, List.getElem_range, hf i _ (List.getElem?_eq_getElem hi)]
    exact h hi hi'

/-- **The list is read back exactly when every piece is**, if a record tells how long its piece
is. -/
theorem read_flatten_iff {len : ρ → ℕ} {g : ρ → Except ε (List α)}
    (hlen : List.Forall₂ (fun r p => p.length = len r) rs ps)
    (hg : ∀ r y, g r = .ok y → y.length = len r) :
    (∃ ys, List.Forall₂ (fun r y => g r = .ok y) rs ys ∧ ys.flatten = ps.flatten) ↔
      List.Forall₂ (fun r p => g r = .ok p) rs ps := by
  constructor
  · rintro ⟨ys, hread, hflat⟩
    have hlengths : ys.map List.length = ps.map List.length := by
      have hys : ys.map List.length = rs.map len := by
        clear hlen hflat
        induction hread with
        | nil => rfl
        | cons hr _ ih => rw [List.map_cons, List.map_cons, ih, hg _ _ hr]
      rw [hys]
      clear hread hflat hys
      induction hlen with
      | nil => rfl
      | cons hr _ ih => rw [List.map_cons, List.map_cons, ih, hr]
    obtain rfl := List.eq_iff_flatten_eq.mpr ⟨hflat, hlengths⟩
    exact hread
  · exact fun h => ⟨ps, h, rfl⟩

theorem forall₂_iff_forall_mem {R : ρ → List α → Prop} {P : List α → Prop}
    (h : List.Forall₂ (fun r p => R r p ↔ P p) rs ps) : List.Forall₂ R rs ps ↔ ∀ p ∈ ps, P p := by
  induction h with
  | nil => exact iff_of_true .nil nofun
  | cons hr _ ih => rw [List.forall₂_cons, List.forall_mem_cons, hr, ih]

theorem forall_mem_of_forall₂ {R : ρ → β → Prop} {P : ρ → Prop} {ys : List β}
    (h : List.Forall₂ R rs ys) (h' : List.Forall₂ (fun r y => R r y → P r) rs ys) :
    ∀ r ∈ rs, P r := by
  induction h with
  | nil => exact nofun
  | cons hr _ ih =>
    obtain ⟨hfirst, hrest⟩ := List.forall₂_cons.mp h'
    exact List.forall_mem_cons.mpr ⟨hfirst hr, ih hrest⟩

end Readers

/-! ## Binary search -/

/-- The last record between `lo` and `hi` that satisfies `p`, when those that do come first; `found`
is the last one seen before. -/
def searchLast (get : ℕ → Option ρ) (p : ρ → Bool) (lo hi : ℕ) (found : Option ρ) : Option ρ :=
  if lo ≤ hi then
    let mid := lo + (hi - lo) / 2
    match get mid with
    | none => none
    | some r =>
      if p r then searchLast get p (mid + 1) hi (some r)
      else if mid = 0 then found
      else searchLast get p lo (mid - 1) found
  else found
termination_by hi + 1 - lo

variable {get : ℕ → Option ρ} {p : ρ → Bool}

/-- What is found was read. -/
theorem get_of_searchLast {lo hi : ℕ} {found : Option ρ} {r : ρ}
    (h : searchLast get p lo hi found = some r) : found = some r ∨ ∃ m, get m = some r := by
  fun_induction searchLast get p lo hi found with
  | case1 => cases h
  | case2 lo hi found _ mid r' hget _ ih =>
    refine (ih h).imp_left ?_ |>.elim (fun h => .inr ⟨mid, h⟩) .inr
    exact fun hr => hget.trans hr
  | case3 => exact .inl h
  | case4 _ _ _ _ _ _ _ _ _ ih => exact ih h
  | case5 => exact .inl h

/-- **The last record that satisfies the predicate is found.** By induction on the search: the
record lies between the bounds, or it is the one that was seen last. -/
theorem searchLast_of {m : ℕ} {r : ρ} {lo hi : ℕ} {found : Option ρ} (hr : get m = some r)
    (hread : ∀ k ≤ hi, (get k).isSome) (hbefore : ∀ k r', k ≤ m → get k = some r' → p r')
    (hafter : ∀ k r', m < k → get k = some r' → ¬ p r') (hlo : lo ≤ m + 1) (hhi : m ≤ hi)
    (hfound : lo = m + 1 → found = some r) : searchLast get p lo hi found = some r := by
  fun_induction searchLast get p lo hi found with
  | case1 lo hi found hle mid hget =>
    have hsome := hread mid (by omega)
    rw [hget] at hsome
    cases hsome
  | case2 lo hi found hle mid r' hget hp ih =>
    have hmid : mid ≤ m := by
      by_contra hlt
      exact hafter mid r' (by omega) hget hp
    refine ih hread (by omega) hhi fun hlast => ?_
    obtain rfl : mid = m := by omega
    rw [← hget, hr]
  | case3 lo hi found hle mid r' hget hp hzero =>
    exact absurd (hbefore mid r' (by omega) hget) hp
  | case4 lo hi found hle mid r' hget hp hpos ih =>
    have hmid : m < mid := by
      by_contra hle
      exact hp (hbefore mid r' (by omega) hget)
    exact ih (fun k hk => hread k (by omega)) hlo (by omega) hfound
  | case5 lo hi found hgt => exact hfound (by omega)

end Runs
