import Mathlib.Algebra.Order.BigOperators.Group.List
import Mathlib.Algebra.Ring.Nat
import Mathlib.Data.List.Forall2
import Mathlib.Tactic.Common

/-!
# Pattern matrices

A value is a tree of constructors, and a pattern looks at the constructor at the root and at what
patterns find in its fields. Whether rows of patterns match every vector of values of given types is
decided column by column: the values of the first column are split by their constructors, and of
each row what matches there is kept, with the patterns of the fields in front (`Covers`).
`covers_iff` says that this is exact.
-/

/-- A tree of constructors. -/
inductive ConstructorTree (H : Type*)
  | node (head : H) (children : List (ConstructorTree H))

namespace PatternLanguage

/-- The size of a row of cells. -/
def rowSize {P : Type*} (size : P → ℕ) (row : List (List P)) : ℕ :=
  (row.map fun ps => (ps.map size).sum).sum

section RowSize

variable {P : Type*} {size : P → ℕ} {ps : List P} {row cells rest : List (List P)}

theorem rowSize_cons : rowSize size (ps :: row) = (ps.map size).sum + rowSize size row := by
  simp [rowSize]

theorem rowSize_append : rowSize size (cells ++ row) = rowSize size cells + rowSize size row := by
  simp [rowSize]

theorem rowSize_blank {n : ℕ} : rowSize size (List.replicate n []) = 0 := by
  simp [rowSize]

theorem rowSize_zipWith (hlen : cells.length = rest.length) :
    rowSize size (List.zipWith (· ++ ·) cells rest) = rowSize size cells + rowSize size rest := by
  induction cells generalizing rest with
  | nil =>
    obtain rfl := List.length_eq_zero_iff.mp hlen.symm
    rfl
  | cons a cells ih =>
    obtain ⟨b, rest, rfl⟩ := List.exists_cons_of_length_eq_add_one hlen.symm
    rw [List.zipWith_cons_cons, rowSize_cons, rowSize_cons, rowSize_cons, ih (Nat.succ.inj hlen),
      List.map_append, List.sum_append]
    omega

/-- A row with one more pattern in a cell. -/
theorem rowSize_modify {i : ℕ} {p : P} (hi : i < cells.length) :
    rowSize size (cells.modify i (p :: ·)) = size p + rowSize size cells := by
  induction cells generalizing i with
  | nil => exact absurd hi (Nat.not_lt_zero _)
  | cons a cells ih =>
    cases i with
    | zero =>
      rw [List.modify_zero_cons, rowSize_cons, rowSize_cons, List.map_cons, List.sum_cons]
      omega
    | succ i =>
      rw [List.modify_succ_cons, rowSize_cons, rowSize_cons, ih (Nat.lt_of_succ_lt_succ hi)]
      omega

end RowSize

end PatternLanguage

/-- Types with their constructors, and patterns. A cell of a row is a list of patterns, all of which
a value has to match. -/
structure PatternLanguage (T H P : Type*) where
  /-- The constructors of a type, each with the types of its fields. -/
  builds : T → H → List T → Prop
  /-- What a pattern asks of the fields of a constructor with a number of fields, if it matches the
  constructor. -/
  view : P → H → ℕ → Option (List (List P))
  size : P → ℕ
  size_pos : ∀ p, 0 < size p
  view_length : ∀ {p h n cells}, view p h n = some cells → cells.length = n
  view_size : ∀ {p h n cells}, view p h n = some cells →
    PatternLanguage.rowSize size cells < size p

namespace PatternLanguage

variable {T H P : Type*} (S : PatternLanguage T H P)

/-- The values of a type. -/
inductive Typed : ConstructorTree H → T → Prop
  | node {t : T} {h : H} {fields : List T} {cs : List (ConstructorTree H)}
      (hb : S.builds t h fields) (hcs : List.Forall₂ Typed cs fields) : Typed (.node h cs) t

/-- A pattern matches a value. -/
inductive Matches : P → ConstructorTree H → Prop
  | node {p : P} {h : H} {cells : List (List P)} {cs : List (ConstructorTree H)}
      (hv : S.view p h cs.length = some cells)
      (hcs : List.Forall₂ (fun ps c => ∀ q ∈ ps, Matches q c) cells cs) : Matches p (.node h cs)

/-- A row matches a vector of values. -/
def RowMatches (row : List (List P)) (vs : List (ConstructorTree H)) : Prop :=
  List.Forall₂ (fun ps v => ∀ p ∈ ps, S.Matches p v) row vs

/-- What the patterns of a cell ask of the fields of a constructor. -/
def merge (h : H) (n : ℕ) : List P → Option (List (List P))
  | [] => some (List.replicate n [])
  | p :: ps =>
    (S.view p h n).bind fun cells => (merge h n ps).map fun rest => List.zipWith (· ++ ·) cells rest

/-- What a row asks of the fields of a constructor in the first column, and of the other columns. -/
def specializeRow (h : H) (n : ℕ) : List (List P) → Option (List (List P))
  | [] => none
  | ps :: rest => (S.merge h n ps).map (· ++ rest)

/-- The rows that match a constructor in the first column. -/
def specialize (h : H) (n : ℕ) (rows : List (List (List P))) : List (List (List P)) :=
  rows.filterMap (S.specializeRow h n)

/-- What a row asks of the other columns, if it asks nothing of the first. -/
def restOfBlank : List (List P) → Option (List (List P))
  | [] :: rest => some rest
  | _ => none

/-- The rows match every vector of values of the types, column by column. -/
inductive Covers : List T → List (List (List P)) → Prop
  | done {rows : List (List (List P))} (h : [] ∈ rows) : Covers [] rows
  | empty {t : T} {ts : List T} {rows : List (List (List P))} (h : ¬ ∃ v, S.Typed v t) :
      Covers (t :: ts) rows
  | skip {t : T} {ts : List T} {rows : List (List (List P))}
      (h : Covers ts (rows.filterMap restOfBlank)) : Covers (t :: ts) rows
  | split {t : T} {ts : List T} {rows : List (List (List P))}
      (h : ∀ head fields, S.builds t head fields →
        Covers (fields ++ ts) (S.specialize head fields.length rows)) : Covers (t :: ts) rows

variable {S} {t : T} {ts fields : List T} {h : H} {n : ℕ} {p : P} {ps : List P}
  {row cells : List (List P)} {rows : List (List (List P))}
  {cs vs : List (ConstructorTree H)} {v : ConstructorTree H}

/-! ## Cells and rows at a constructor -/

theorem matches_node :
    S.Matches p (.node h cs) ↔
      ∃ cells, S.view p h cs.length = some cells ∧ S.RowMatches cells cs := by
  constructor
  · rintro ⟨hv, hcs⟩
    exact ⟨_, hv, hcs⟩
  · rintro ⟨cells, hv, hcs⟩
    exact .node hv hcs

theorem merge_cons :
    S.merge h n (p :: ps) = some cells ↔ ∃ first rest, S.view p h n = some first ∧
      S.merge h n ps = some rest ∧ cells = List.zipWith (· ++ ·) first rest := by
  simp only [merge, Option.bind_eq_some_iff, Option.map_eq_some_iff]
  constructor
  · rintro ⟨first, hv, rest, hm, rfl⟩
    exact ⟨first, rest, hv, hm, rfl⟩
  · rintro ⟨first, rest, hv, hm, rfl⟩
    exact ⟨first, hv, rest, hm, rfl⟩

theorem merge_length (hm : S.merge h n ps = some cells) : cells.length = n := by
  induction ps generalizing cells with
  | nil =>
    obtain rfl := Option.some.inj hm
    exact List.length_replicate
  | cons p ps ih =>
    obtain ⟨first, rest, hv, hr, rfl⟩ := merge_cons.mp hm
    rw [List.length_zipWith, S.view_length hv, ih hr, Nat.min_self]

/-- Fields match two rows together when they match the rows cell by cell. -/
theorem rowMatches_zipWith {first rest : List (List P)} (hf : first.length = cs.length)
    (hr : rest.length = cs.length) :
    S.RowMatches (List.zipWith (· ++ ·) first rest) cs ↔
      S.RowMatches first cs ∧ S.RowMatches rest cs := by
  unfold RowMatches
  induction cs generalizing first rest with
  | nil =>
    obtain rfl := List.length_eq_zero_iff.mp hf
    obtain rfl := List.length_eq_zero_iff.mp hr
    simp
  | cons c cs ih =>
    obtain ⟨a, first, rfl⟩ := List.exists_cons_of_length_eq_add_one hf
    obtain ⟨b, rest, rfl⟩ := List.exists_cons_of_length_eq_add_one hr
    have htail := ih (Nat.succ.inj hf) (Nat.succ.inj hr)
    simp only [List.zipWith_cons_cons, List.forall₂_cons, htail, List.mem_append]
    constructor
    · rintro ⟨hc, h₁, h₂⟩
      exact ⟨⟨fun q hq => hc q (.inl hq), h₁⟩, fun q hq => hc q (.inr hq), h₂⟩
    · rintro ⟨⟨ha, h₁⟩, hb, h₂⟩
      exact ⟨fun q hq => hq.elim (ha q) (hb q), h₁, h₂⟩

theorem rowMatches_blank : S.RowMatches (List.replicate cs.length []) cs := by
  unfold RowMatches
  induction cs with
  | nil => exact .nil
  | cons c cs ih => exact .cons (fun _ hq => absurd hq List.not_mem_nil) ih

/-- **A cell at a constructor**: the patterns match the value when what they ask of its fields is
found there. -/
theorem forall_matches_node :
    (∀ p ∈ ps, S.Matches p (.node h cs)) ↔
      ∃ cells, S.merge h cs.length ps = some cells ∧ S.RowMatches cells cs := by
  induction ps with
  | nil => simpa [merge] using rowMatches_blank
  | cons p ps ih =>
    rw [List.forall_mem_cons, ih, matches_node]
    constructor
    · rintro ⟨⟨first, hv, h₁⟩, rest, hr, h₂⟩
      refine ⟨_, merge_cons.mpr ⟨first, rest, hv, hr, rfl⟩, ?_⟩
      exact (rowMatches_zipWith (S.view_length hv) (merge_length hr)).mpr ⟨h₁, h₂⟩
    · rintro ⟨cells, hm, hcs⟩
      obtain ⟨first, rest, hv, hr, rfl⟩ := merge_cons.mp hm
      obtain ⟨h₁, h₂⟩ := (rowMatches_zipWith (S.view_length hv) (merge_length hr)).mp hcs
      exact ⟨⟨first, hv, h₁⟩, rest, hr, h₂⟩

/-- A row with one more pattern in a cell matches when the pattern matches there too. -/
theorem rowMatches_modify {i : ℕ} (hlen : cells.length = cs.length) (hi : cs[i]? = some v) :
    S.RowMatches (cells.modify i (p :: ·)) cs ↔ S.Matches p v ∧ S.RowMatches cells cs := by
  unfold RowMatches
  induction cs generalizing cells i with
  | nil => cases hi
  | cons c cs ih =>
    obtain ⟨a, cells, rfl⟩ := List.exists_cons_of_length_eq_add_one hlen
    cases i with
    | zero =>
      obtain rfl := Option.some.inj hi
      rw [List.modify_zero_cons, List.forall₂_cons, List.forall₂_cons, List.forall_mem_cons,
        and_assoc]
    | succ i =>
      rw [List.modify_succ_cons, List.forall₂_cons, List.forall₂_cons, ih (Nat.succ.inj hlen) hi]
      exact and_left_comm

theorem rowMatches_append (hlen : cells.length = cs.length) :
    S.RowMatches (cells ++ row) (cs ++ vs) ↔ S.RowMatches cells cs ∧ S.RowMatches row vs := by
  constructor
  · intro hm
    have htake := List.forall₂_take cells.length hm
    have hdrop := List.forall₂_drop cells.length hm
    rw [List.take_left, hlen, List.take_left] at htake
    rw [List.drop_left, hlen, List.drop_left] at hdrop
    exact ⟨htake, hdrop⟩
  · rintro ⟨h₁, h₂⟩
    exact List.rel_append h₁ h₂

/-- A row matches a constructor in front when what it asks there matches the fields. -/
theorem rowMatches_node :
    S.RowMatches row (.node h cs :: vs) ↔
      ∃ row', S.specializeRow h cs.length row = some row' ∧ S.RowMatches row' (cs ++ vs) := by
  cases row with
  | nil =>
    constructor
    · rintro ⟨⟩
    · rintro ⟨_, ⟨⟩, -⟩
  | cons ps rest =>
    rw [RowMatches, List.forall₂_cons, forall_matches_node]
    simp only [specializeRow, Option.map_eq_some_iff]
    constructor
    · rintro ⟨⟨cells, hm, hcs⟩, hrest⟩
      exact ⟨_, ⟨cells, hm, rfl⟩, (rowMatches_append (merge_length hm)).mpr ⟨hcs, hrest⟩⟩
    · rintro ⟨_, ⟨cells, hm, rfl⟩, hrow⟩
      obtain ⟨hcs, hrest⟩ := (rowMatches_append (merge_length hm)).mp hrow
      exact ⟨⟨cells, hm, hcs⟩, hrest⟩

theorem restOfBlank_eq : restOfBlank row = some cells ↔ row = [] :: cells := by
  rcases row with _ | ⟨_ | ⟨p, ps⟩, rest⟩ <;> simp [restOfBlank]

/-! ## The sizes -/

/-- Patterns ask less of the fields than of the value. -/
theorem merge_size (hm : S.merge h n ps = some cells) :
    rowSize S.size cells + ps.length ≤ (ps.map S.size).sum := by
  induction ps generalizing cells with
  | nil =>
    obtain rfl := Option.some.inj hm
    rw [rowSize_blank]
    exact le_rfl
  | cons p ps ih =>
    obtain ⟨first, rest, hv, hr, rfl⟩ := merge_cons.mp hm
    have hfirst : rowSize S.size first < S.size p := S.view_size hv
    have hlen : first.length = rest.length := by rw [S.view_length hv, merge_length hr]
    rw [rowSize_zipWith hlen, List.length_cons, List.map_cons, List.sum_cons]
    have := ih hr
    omega

theorem specializeRow_size (hm : S.specializeRow h n row = some cells) :
    rowSize S.size cells ≤ rowSize S.size row ∧
      (row.head? ≠ some [] → rowSize S.size cells < rowSize S.size row) := by
  cases row with
  | nil => cases hm
  | cons ps rest =>
    obtain ⟨first, hfirst, rfl⟩ := Option.map_eq_some_iff.mp hm
    have hsize := merge_size hfirst
    rw [rowSize_append, rowSize_cons]
    refine ⟨by omega, fun hne => ?_⟩
    have hpos : 0 < ps.length := List.length_pos_iff.mpr fun h => hne (by rw [h]; rfl)
    omega

/-- The size of a matrix. -/
def matrixSize (S : PatternLanguage T H P) (rows : List (List (List P))) : ℕ :=
  (rows.map (rowSize S.size)).sum

theorem matrixSize_restOfBlank (rows : List (List (List P))) : S.matrixSize (rows.filterMap restOfBlank) ≤ S.matrixSize rows := by
  induction rows with
  | nil => exact le_rfl
  | cons row rows ih =>
    unfold matrixSize at ih ⊢
    rw [List.map_cons, List.sum_cons, List.filterMap_cons]
    cases hr : restOfBlank row with
    | none => exact ih.trans (Nat.le_add_left _ _)
    | some rest =>
      obtain rfl := restOfBlank_eq.mp hr
      rw [List.map_cons, List.sum_cons, rowSize_cons]
      simp only [List.map_nil, List.sum_nil, Nat.zero_add]
      exact Nat.add_le_add_left ih _

theorem matrixSize_specialize_le (rows : List (List (List P))) : S.matrixSize (S.specialize h n rows) ≤ S.matrixSize rows := by
  induction rows with
  | nil => exact le_rfl
  | cons row rows ih =>
    unfold specialize matrixSize at ih ⊢
    rw [List.map_cons, List.sum_cons, List.filterMap_cons]
    cases hr : S.specializeRow h n row with
    | none => exact ih.trans (Nat.le_add_left _ _)
    | some cells => exact Nat.add_le_add (specializeRow_size hr).1 ih

/-- Splitting a column that some row asks something of makes the matrix smaller. -/
theorem matrixSize_specialize_lt (hrow : ps :: row ∈ rows) (hne : ps ≠ []) :
    S.matrixSize (S.specialize h n rows) < S.matrixSize rows := by
  obtain ⟨before, behind, rfl⟩ := List.append_of_mem hrow
  have hbefore := matrixSize_specialize_le (S := S) (h := h) (n := n) before
  have hbehind := matrixSize_specialize_le (S := S) (h := h) (n := n) behind
  unfold specialize matrixSize at hbefore hbehind ⊢
  rw [List.filterMap_append, List.filterMap_cons, List.map_append, List.map_append, List.sum_append,
    List.sum_append, List.map_cons, List.sum_cons]
  obtain ⟨p, ps, rfl⟩ := List.exists_cons_of_ne_nil hne
  have hpos : 0 < rowSize S.size ((p :: ps) :: row) := by
    rw [rowSize_cons, List.map_cons, List.sum_cons]
    have := S.size_pos p
    omega
  cases hr : S.specializeRow h n ((p :: ps) :: row) with
  | none =>
    simp only
    omega
  | some cells =>
    have := (specializeRow_size hr).2 (by simp)
    simp only [List.map_cons, List.sum_cons]
    omega

/-! ## The criterion is exact -/

theorem typed_cons : List.Forall₂ S.Typed vs (t :: ts) ↔
    ∃ head fields cs rest, S.builds t head fields ∧ vs = .node head cs :: rest ∧
      List.Forall₂ S.Typed (cs ++ rest) (fields ++ ts) ∧ cs.length = fields.length := by
  constructor
  · intro hvs
    obtain ⟨v, rest, hv, hrest, rfl⟩ := List.forall₂_cons_right_iff.mp hvs
    obtain ⟨hb, hcs⟩ := hv
    exact ⟨_, _, _, rest, hb, rfl, List.rel_append hcs hrest, hcs.length_eq⟩
  · rintro ⟨head, fields, cs, rest, hb, rfl, hall, hlen⟩
    have htake := List.forall₂_take cs.length hall
    have hdrop := List.forall₂_drop cs.length hall
    rw [List.take_left, hlen, List.take_left] at htake
    rw [List.drop_left, hlen, List.drop_left] at hdrop
    exact .cons (.node hb htake) hdrop

/-- Rows that cover the types match every vector of values. -/
theorem Covers.matched (hc : S.Covers ts rows) (hvs : List.Forall₂ S.Typed vs ts) :
    ∃ row ∈ rows, S.RowMatches row vs := by
  induction hc generalizing vs with
  | done h =>
    cases hvs
    exact ⟨[], h, .nil⟩
  | empty h =>
    obtain ⟨v, rest, hv, -, rfl⟩ := List.forall₂_cons_right_iff.mp hvs
    exact absurd ⟨v, hv⟩ h
  | skip h ih =>
    obtain ⟨v, rest, -, hrest, rfl⟩ := List.forall₂_cons_right_iff.mp hvs
    obtain ⟨row, hrow, hm⟩ := ih hrest
    obtain ⟨row', hrow', heq⟩ := List.mem_filterMap.mp hrow
    obtain rfl := restOfBlank_eq.mp heq
    exact ⟨_, hrow', .cons (fun _ hq => absurd hq List.not_mem_nil) hm⟩
  | split h ih =>
    obtain ⟨head, fields, cs, rest, hb, rfl, hall, hlen⟩ := typed_cons.mp hvs
    obtain ⟨row, hrow, hm⟩ := ih head fields hb hall
    obtain ⟨row', hrow', heq⟩ := List.mem_filterMap.mp hrow
    rw [← hlen] at heq
    exact ⟨row', hrow', rowMatches_node.mpr ⟨row, heq, hm⟩⟩

/-- Rows that match every vector of values cover the types. The induction is on the size of the
matrix, which a split makes smaller, and then on the number of columns. -/
theorem covers_of_matched
    (hall : ∀ vs, List.Forall₂ S.Typed vs ts → ∃ row ∈ rows, S.RowMatches row vs) :
    S.Covers ts rows := by
  induction hk : S.matrixSize rows using Nat.strong_induction_on generalizing ts rows with
  | _ k ihSize =>
  induction ts generalizing rows with
  | nil =>
    obtain ⟨row, hrow, hm⟩ := hall [] .nil
    cases hm
    exact .done hrow
  | cons t ts ihColumns =>
    by_cases hasked : ∃ ps row, ps :: row ∈ rows ∧ ps ≠ []
    · obtain ⟨ps, row, hrow, hne⟩ := hasked
      refine .split fun head fields hb => ihSize _ ?_ ?_ rfl
      · rw [← hk]
        exact matrixSize_specialize_lt hrow hne
      · intro ws hws
        obtain ⟨cs, vs, rfl, hlen⟩ : ∃ cs vs, ws = cs ++ vs ∧ cs.length = fields.length :=
          ⟨_, _, (List.take_append_drop fields.length ws).symm,
            List.length_take_of_le (by rw [hws.length_eq, List.length_append]; omega)⟩
        obtain ⟨row', hrow', hm⟩ := hall (.node head cs :: vs)
          (typed_cons.mpr ⟨head, fields, cs, vs, hb, rfl, hws, hlen⟩)
        obtain ⟨row'', heq, hm⟩ := rowMatches_node.mp hm
        rw [hlen] at heq
        exact ⟨row'', List.mem_filterMap.mpr ⟨row', hrow', heq⟩, hm⟩
    · by_cases hv : ∃ v, S.Typed v t
      · obtain ⟨v, hv⟩ := hv
        have hrest : ∀ vs, List.Forall₂ S.Typed vs ts →
            ∃ row ∈ rows.filterMap restOfBlank, S.RowMatches row vs := by
          intro vs hvs
          obtain ⟨row, hrow, hm⟩ := hall (v :: vs) (.cons hv hvs)
          obtain ⟨ps, rest, -, htail, rfl⟩ := List.forall₂_cons_right_iff.mp hm
          obtain rfl : ps = [] := by
            by_contra hne
            exact hasked ⟨ps, rest, hrow, hne⟩
          exact ⟨rest, List.mem_filterMap.mpr ⟨_, hrow, rfl⟩, htail⟩
        rcases (matrixSize_restOfBlank (S := S) rows).lt_or_eq with hlt | heq
        · exact .skip (ihSize _ (hk ▸ hlt) hrest rfl)
        · exact .skip (ihColumns hrest (heq.trans hk))
      · exact .empty hv

/-- **The criterion is exact**: rows cover the types just when they match every vector of their
values. -/
theorem covers_iff : S.Covers ts rows ↔
    ∀ vs, List.Forall₂ S.Typed vs ts → ∃ row ∈ rows, S.RowMatches row vs :=
  ⟨fun hc _ => hc.matched, covers_of_matched⟩

end PatternLanguage
