import Keleusma.Control.Loops
import Keleusma.Verify.Heights
import Keleusma.Verify.WorstCase

/-!
# The bound on execution time covers every path

The walk over a region of a tree of blocks returns a cost that covers the cost of every trail
through the region, as long as the counted loops keep to their numbers of passes
(`wcetRegionAt_covers`). It misses no end of the region either: where control comes to the end, the
walk says so, and where control leaves through a break, the walk has recorded one.
-/

namespace Keleusma

open Saturating (u32Max)

/-- The cost of executing the instruction at a position. -/
def priceAt (chunk : Chunk) (cm : CostModel) (extra : List ℕ) (p : ℕ) : ℕ :=
  (chunk.ops[p]?).elim 0 cm.cycles + extra.getD p 0

variable {chunk : Chunk} {cm : CostModel} {extra : List ℕ} {x : Option ℕ}
  {fuel lo m hi cost c nest : ℕ} {breaks : List ℕ} {op : Op} {r : WcetOutcome × List ℕ}

theorem opWcetCycles_covers (h : opWcetCycles chunk cm extra lo = .ok c) :
    Saturating.Covers u32Max c (priceAt chunk cm extra lo) := by
  unfold opWcetCycles at h
  split at h
  · cases h
  split at h
  next op hop =>
    cases h
    unfold priceAt
    rw [hop]
    exact le_refl _
  · cases h

/-- The walk takes a step at an instruction, or is at the end. -/
theorem wcetRegionAt_ok (h : wcetRegionAt chunk cm false extra fuel lo hi cost breaks nest = .ok r) :
    min hi chunk.ops.length ≤ lo ∧ r = (⟨cost, true⟩, breaks) ∨
    ∃ f op c, lo < hi ∧ chunk.ops[lo]? = some op ∧ opWcetCycles chunk cm extra lo = .ok c ∧
      wcetOp chunk cm false extra (wcetRegionAt chunk cm false extra f) lo hi
        (Saturating.add u32Max cost c) breaks nest op = .ok r := by
  cases fuel with
  | zero => cases h
  | succ f =>
    unfold wcetRegionAt at h
    split at h
    · cases h
    split at h
    next hend => exact .inl ⟨hend, (Except.ok.inj h).symm⟩
    next hend =>
    split at h
    · cases h
    next op hop =>
      obtain ⟨c, hc, h⟩ := bind_eq_ok h
      exact .inr ⟨f, op, c, by omega, hop, hc, h⟩

/-- The walk at an instruction of a region. -/
theorem wcetRegionAt_op (h : wcetRegionAt chunk cm false extra fuel lo hi cost breaks nest = .ok r)
    (hlt : lo < hi) (hop : chunk.ops[lo]? = some op) :
    ∃ f c, Saturating.Covers u32Max c (priceAt chunk cm extra lo) ∧
      wcetOp chunk cm false extra (wcetRegionAt chunk cm false extra f) lo hi
        (Saturating.add u32Max cost c) breaks nest op = .ok r := by
  have hlen := (List.getElem?_eq_some_iff.mp hop).1
  rcases wcetRegionAt_ok h with ⟨hend, -⟩ | ⟨f, op', c, -, hop', hc, h⟩
  · omega
  · cases hop.symm.trans hop'
    exact ⟨f, c, opWcetCycles_covers hc, h⟩

/-- What the walk over a region is right about. -/
structure Covered (chunk : Chunk) (cm : CostModel) (extra : List ℕ) (x : Option ℕ) (lo hi cost : ℕ)
    (breaks : List ℕ) (r : WcetOutcome × List ℕ) : Prop where
  weighs : Weighs chunk.ops (extractLoopIterationBound chunk) (priceAt chunk cm extra) u32Max lo hi
    cost r.1.cost
  falls : Arrives chunk.ops lo hi hi → r.1.fallsThrough = true
  breaks : ∃ new, r.2 = breaks ++ new ∧ ∀ k, x = some k → Arrives chunk.ops lo hi k → new ≠ []

/-- The walk goes on behind an instruction that is no delimiter, unless it ends the path. -/
theorem wcetOp_leaf {walk : WcetWalk} (hd : op.isDelimiter = false) :
    (op.next lo = [] ∧
        wcetOp chunk cm false extra walk lo hi cost breaks nest op = .ok (.exits cost, breaks)) ∨
      wcetOp chunk cm false extra walk lo hi cost breaks nest op =
        walk (lo + 1) hi cost breaks nest := by
  cases op <;> first
    | exact .inr rfl
    | exact .inl ⟨rfl, rfl⟩
    | cases hd

namespace Covered

/-- The walk over nothing. -/
theorem nil (h : wcetRegionAt chunk cm false extra fuel lo lo cost breaks nest = .ok r)
    (hx : ∀ k, x = some k → lo < k) : Covered chunk cm extra x lo lo cost breaks r := by
  rcases wcetRegionAt_ok h with ⟨-, rfl⟩ | ⟨f, op, c, hlt, -⟩
  · refine ⟨.nil, fun _ => rfl, [], (List.append_nil _).symm, fun k hk harrives => ?_⟩
    exact absurd harrives.nil (hx k hk).ne'
  · exact absurd hlt (lt_irrefl lo)

/-- An instruction that goes on behind itself. -/
theorem goto (hx : ∀ k, x = some k → hi < k) (hlt : lo < hi) (hop : chunk.ops[lo]? = some op)
    (hd : ∀ q ∈ op.next lo, q = lo + 1)
    (hc : Saturating.Covers u32Max c (priceAt chunk cm extra lo))
    (ih : Covered chunk cm extra x (lo + 1) hi (Saturating.add u32Max cost c) breaks r) :
    Covered chunk cm extra x lo hi cost breaks r := by
  obtain ⟨new, hnew, hbreaks⟩ := ih.breaks
  refine ⟨.goto hc hop hd ih.weighs, fun h => ih.falls (h.goto hlt le_rfl hop hd), new, hnew, ?_⟩
  exact fun k hk h => hbreaks k hk (h.goto hlt (hx k hk).le hop hd)

/-- An instruction that ends the path. -/
theorem halt (hx : ∀ k, x = some k → hi < k) (hlt : lo < hi) (hop : chunk.ops[lo]? = some op)
    (hnext : op.next lo = []) (hc : Saturating.Covers u32Max c (priceAt chunk cm extra lo)) :
    Covered chunk cm extra x lo hi cost breaks
      (.exits (Saturating.add u32Max cost c), breaks) := by
  have hno {q : ℕ} (hq : hi ≤ q) : ¬Arrives chunk.ops lo hi q := by
    intro h
    obtain ⟨p, hp, -⟩ := h.next hlt hq hop
    rw [hnext] at hp
    cases hp
  refine ⟨.halt hc hop ?_, fun h => absurd h (hno le_rfl), [], (List.append_nil _).symm, ?_⟩
  · rw [hnext]
    exact List.forall_mem_nil _
  · exact fun k hk h => absurd h (hno (hx k hk).le)

theorem «break» {k : ℕ} (hlt : lo < hi) (hk : hi < k) (hop : chunk.ops[lo]? = some (.break k))
    (hc : Saturating.Covers u32Max c (priceAt chunk cm extra lo)) :
    Covered chunk cm extra (some k) lo hi cost breaks
      (.exits (Saturating.add u32Max cost c), breaks ++ [Saturating.add u32Max cost c]) where
  weighs := .halt hc hop fun q hq => by
    obtain rfl := List.mem_singleton.mp hq
    exact hk.le
  falls h := absurd (h.break hlt le_rfl hop hk) hk.ne
  breaks := ⟨_, rfl, fun _ _ _ => List.cons_ne_nil _ _⟩

theorem breakIf {k : ℕ} (hlt : lo < hi) (hk : hi < k) (hop : chunk.ops[lo]? = some (.breakIf k))
    (hc : Saturating.Covers u32Max c (priceAt chunk cm extra lo))
    (ih : Covered chunk cm extra (some k) (lo + 1) hi (Saturating.add u32Max cost c)
      (breaks ++ [Saturating.add u32Max cost c]) r) :
    Covered chunk cm extra (some k) lo hi cost breaks r := by
  obtain ⟨new, hnew, -⟩ := ih.breaks
  refine ⟨.breakIf hc hop hk.le ih.weighs, fun h => ?_, Saturating.add u32Max cost c :: new, ?_, ?_⟩
  · rcases h.breakIf hlt le_rfl hop hk with heq | h
    · exact absurd heq hk.ne
    · exact ih.falls h
  · rw [hnew, List.append_assoc, List.singleton_append]
  · exact fun _ _ _ => List.cons_ne_nil _ _

theorem ifThen {r' : WcetOutcome × List ℕ} {e : ℕ} (hx : ∀ k, x = some k → hi < k)
    (hm : m < hi) (hif : chunk.ops[lo]? = some (.ifOp m))
    (hbody : Region Eq chunk.ops x (lo + 1) m) (hend : chunk.ops[m]? = some .endIf)
    (hc : Saturating.Covers u32Max c (priceAt chunk cm extra lo))
    (he : Saturating.Covers u32Max e (priceAt chunk cm extra m))
    (body : Covered chunk cm extra x (lo + 1) m 0 breaks r')
    (rest : Covered chunk cm extra x (m + 1) hi (Saturating.add u32Max (Saturating.add u32Max
      (Saturating.add u32Max cost c) r'.1.cost) e) r'.2 r) :
    Covered chunk cm extra x lo hi cost breaks r := by
  have hle := hbody.le
  obtain ⟨new, hnew, hbreaks⟩ := body.breaks
  obtain ⟨new', hnew', hbreaks'⟩ := rest.breaks
  refine ⟨.ifThen hc hif hbody (fun k hk => (hx k hk).le) body.weighs hend he rest.weighs,
    fun h => ?_, new ++ new', ?_, fun k hk h => ?_⟩
  · rcases h.ifThen (by omega) hx (.inl rfl) hif hbody hm hend with ⟨hk, -⟩ | h
    · exact absurd (hx hi hk) (lt_irrefl hi)
    · exact rest.falls h
  · rw [hnew', hnew, List.append_assoc]
  · rcases h.ifThen (by omega) hx (.inr hk) hif hbody hm hend with ⟨-, h⟩ | h
    · exact List.append_ne_nil_of_left_ne_nil (hbreaks k hk h) _
    · exact List.append_ne_nil_of_right_ne_nil _ (hbreaks' k hk h)

theorem ifElse {r₁ r₂ : WcetOutcome × List ℕ} {t e e' C : ℕ} (hx : ∀ k, x = some k → hi < k)
    (ht : t < hi) (hif : chunk.ops[lo]? = some (.ifOp (m + 1)))
    (hthen : Region Eq chunk.ops x (lo + 1) m) (helse : chunk.ops[m]? = some (.elseOp t))
    (helse' : Region Eq chunk.ops x (m + 1) t) (hend : chunk.ops[t]? = some .endIf)
    (hc : Saturating.Covers u32Max c (priceAt chunk cm extra lo))
    (he : Saturating.Covers u32Max e (priceAt chunk cm extra m))
    (he' : Saturating.Covers u32Max e' (priceAt chunk cm extra t))
    (thenBody : Covered chunk cm extra x (lo + 1) m 0 breaks r₁)
    (elseBody : Covered chunk cm extra x (m + 1) t 0 r₁.2 r₂)
    (hC : C = Saturating.add u32Max (Saturating.add u32Max (Saturating.add u32Max cost c)
      (max (Saturating.add u32Max r₁.1.cost e) r₂.1.cost)) e')
    (stays : r₁.1.fallsThrough = false → r₂.1.fallsThrough = false → r = (.exits C, r₂.2))
    (rest : r₁.1.fallsThrough = true ∨ r₂.1.fallsThrough = true →
      Covered chunk cm extra x (t + 1) hi C r₂.2 r) :
    Covered chunk cm extra x lo hi cost breaks r := by
  have hle := hthen.le
  have hle' := helse'.le
  subst hC
  obtain ⟨new₁, hnew₁, hbreaks₁⟩ := thenBody.breaks
  obtain ⟨new₂, hnew₂, hbreaks₂⟩ := elseBody.breaks
  have hnew : r₂.2 = breaks ++ (new₁ ++ new₂) := by rw [hnew₂, hnew₁, List.append_assoc]
  have hweighs := Weighs.ifElse cost r.1.cost hc hif hthen
    (fun k hk => (hx k hk).le) thenBody.weighs helse he helse' elseBody.weighs
  have hexit {k : ℕ} (hk : x = some k)
      (h : Arrives chunk.ops (lo + 1) m k ∨ Arrives chunk.ops (m + 1) t k) : new₁ ++ new₂ ≠ [] := by
    rcases h with h | h
    · exact List.append_ne_nil_of_left_ne_nil (hbreaks₁ k hk h) _
    · exact List.append_ne_nil_of_right_ne_nil _ (hbreaks₂ k hk h)
  by_cases hfalls : r₁.1.fallsThrough = true ∨ r₂.1.fallsThrough = true
  · have hrest := rest hfalls
    obtain ⟨new, hnew', hbreaks⟩ := hrest.breaks
    have hjoin := Weighs.goto he' hend (fun q hq => List.mem_singleton.mp hq) hrest.weighs
    refine ⟨hweighs (fun a ha => hjoin a ha [] .nil (List.forall_mem_nil _) .nil)
      fun _ => hjoin, fun h => ?_, new₁ ++ new₂ ++ new, ?_, fun k hk h => ?_⟩
    · rcases h.ifElse (by omega) hx (.inl rfl) hif hthen helse helse' ht hend with ⟨hk, -⟩ | ⟨-, h⟩
      · exact absurd (hx hi hk) (lt_irrefl hi)
      · exact hrest.falls h
    · rw [hnew', hnew, List.append_assoc breaks]
    · rcases h.ifElse (by omega) hx (.inr hk) hif hthen helse helse' ht hend with ⟨-, h⟩ | ⟨-, h⟩
      · exact List.append_ne_nil_of_left_ne_nil (hexit hk h) _
      · exact List.append_ne_nil_of_right_ne_nil _ (hbreaks k hk h)
  · -- no path comes to the end of either side
    have hno : ¬(Arrives chunk.ops (lo + 1) m m ∨ Arrives chunk.ops (m + 1) t t) := by
      rintro (h | h)
      · exact hfalls (.inl (thenBody.falls h))
      · exact hfalls (.inr (elseBody.falls h))
    obtain ⟨h₁, h₂⟩ := not_or.mp hfalls
    obtain rfl := stays (Bool.not_eq_true _ ▸ h₁) (Bool.not_eq_true _ ▸ h₂)
    refine ⟨hweighs (fun a ha => (ha.add .zero)) fun h => absurd h hno, fun h => ?_,
      new₁ ++ new₂, hnew, fun k hk h => ?_⟩
    · rcases h.ifElse (by omega) hx (.inl rfl) hif hthen helse helse' ht hend with ⟨hk, -⟩ | ⟨h, -⟩
      · exact absurd (hx hi hk) (lt_irrefl hi)
      · exact absurd h hno
    · rcases h.ifElse (by omega) hx (.inr hk) hif hthen helse helse' ht hend with ⟨-, h⟩ | ⟨h, -⟩
      · exact hexit hk h
      · exact absurd h hno

/-- A loop whose body covers `X`, and which control leaves only where the walk goes on. -/
theorem loop {X : ℕ} (hx : ∀ k, x = some k → hi < k) (hm : m < hi)
    (hop : chunk.ops[lo]? = some (.loop (m + 1)))
    (hbody : Region Eq chunk.ops (some (m + 1)) (lo + 1) m)
    (hend : chunk.ops[m]? = some (.endLoop (lo + 1)))
    (hc : Saturating.Covers u32Max c (priceAt chunk cm extra lo))
    (hinner : ∀ es, Trail chunk.ops (lo + 1) es → (∀ p ∈ es, lo + 1 ≤ p ∧ p < m + 1) →
      KeepsBounds chunk.ops (extractLoopIterationBound chunk) es →
        Saturating.Covers u32Max X (weight (priceAt chunk cm extra) es))
    (hrest : Covered chunk cm extra x (m + 1) hi
      (Saturating.add u32Max (Saturating.add u32Max cost c) X) breaks r) :
    Covered chunk cm extra x lo hi cost breaks r := by
  have hle := hbody.le
  obtain ⟨new, hnew, hbreaks⟩ := hrest.breaks
  refine ⟨.loop hc hop hbody hend hinner
    (fun a ha => hrest.weighs a ha [] .nil (List.forall_mem_nil _) .nil) fun _ => hrest.weighs,
    fun h => ?_, new, hnew, fun k hk h => ?_⟩
  · exact hrest.falls (h.loop (by omega) le_rfl hop hbody hend hm).2
  · exact hbreaks k hk (h.loop (by omega) (hx k hk).le hop hbody hend hm).2

/-- A loop that control does not leave. -/
theorem loop_stays {X : ℕ} (hx : ∀ k, x = some k → hi < k) (hm : m < hi)
    (hop : chunk.ops[lo]? = some (.loop (m + 1)))
    (hbody : Region Eq chunk.ops (some (m + 1)) (lo + 1) m)
    (hend : chunk.ops[m]? = some (.endLoop (lo + 1)))
    (hc : Saturating.Covers u32Max c (priceAt chunk cm extra lo))
    (hinner : ∀ es, Trail chunk.ops (lo + 1) es → (∀ p ∈ es, lo + 1 ≤ p ∧ p < m + 1) →
      KeepsBounds chunk.ops (extractLoopIterationBound chunk) es →
        Saturating.Covers u32Max X (weight (priceAt chunk cm extra) es))
    (hno : ¬Arrives chunk.ops (lo + 1) m (m + 1)) :
    Covered chunk cm extra x lo hi cost breaks
      (.exits (Saturating.add u32Max (Saturating.add u32Max cost c) X), breaks) := by
  have hle := hbody.le
  refine ⟨.loop hc hop hbody hend hinner (fun a ha => ha) fun h => absurd h hno,
    fun h => absurd (h.loop (by omega) le_rfl hop hbody hend hm).1 hno, [],
    (List.append_nil _).symm, fun k hk h => ?_⟩
  exact absurd (h.loop (by omega) (hx k hk).le hop hbody hend hm).1 hno

end Covered

/-- The walk over the body of a counted loop has recorded the cost of its test. -/
theorem wcetRegionAt_test {l : ℕ} (htest : TestAt chunk.ops l) (hlt : l + loopHeader < m)
    (hbody : Region Eq chunk.ops (some (m + 1)) (l + 1) m)
    (h : wcetRegionAt chunk cm false extra fuel (l + 1) m 0 [] nest = .ok r) :
    ∃ f H, Weighs chunk.ops (extractLoopIterationBound chunk) (priceAt chunk cm extra) u32Max
        (l + 1) (l + loopHeader) 0 H ∧
      wcetRegionAt chunk cm false extra f (l + loopHeader) m H [H] nest = .ok r := by
  unfold loopHeader at hlt ⊢
  obtain ⟨v, hvar⟩ := htest.var
  obtain ⟨v', hlimit⟩ := htest.limit
  obtain ⟨k, hbreak⟩ := htest.breaks
  obtain ⟨f₁, c₁, hc₁, h⟩ := wcetRegionAt_op h (by omega) hvar
  obtain ⟨f₂, c₂, hc₂, h⟩ := wcetRegionAt_op h (by omega) hlimit
  obtain ⟨f₃, c₃, hc₃, h⟩ := wcetRegionAt_op h (by omega) htest.compares
  obtain ⟨f₄, c₄, hc₄, h⟩ := wcetRegionAt_op h (by omega) hbreak
  have hk : l + 4 < k := hbody.jump_lt (fun k hk => by cases hk; omega) (by omega) (by omega)
    (.inr (.inr (.inr hbreak)))
  have hnext {q p : ℕ} (hq : q ∈ [p]) : q = p := List.mem_singleton.mp hq
  exact ⟨f₄, _, .goto hc₁ hvar (fun q => hnext) (.goto hc₂ hlimit (fun q => hnext)
    (.goto hc₃ htest.compares (fun q => hnext) (.breakIf hc₄ hbreak hk .nil))), h⟩

theorem delimiterCost_covers (h : delimiterCost chunk cm extra m true = .ok c) :
    Saturating.Covers u32Max c (priceAt chunk cm extra m) :=
  opWcetCycles_covers h

theorem isEndLoop_eq_true {t : ℕ} (h : chunk.ops[m]? = some (.endLoop t)) :
    isEndLoop chunk.ops m = true := by
  unfold isEndLoop
  rw [h]

theorem le_foldl_max (H : ℕ) (l : List ℕ) : H ≤ (H :: l).foldl max 0 := by
  rw [List.foldl_cons, Nat.zero_max, List.foldl_max]
  exact le_max_left _ _

theorem iterationCount_ok {n : ℕ} (h : iterationCount chunk lo false = .ok n) :
    extractLoopIterationBound chunk lo = some n := by
  unfold iterationCount at h
  rw [if_neg Bool.false_ne_true] at h
  split at h
  next heq => rw [heq, Except.ok.inj h]
  · cases h

/-- **The cost of a region covers every path through it.** -/
theorem wcetRegionAt_covers (hr : Region Eq chunk.ops x lo hi) (hx : ∀ k, x = some k → hi < k)
    (h : wcetRegionAt chunk cm false extra fuel lo hi cost breaks nest = .ok r) :
    Covered chunk cm extra x lo hi cost breaks r := by
  -- by induction on the size of the region: the rest of a loop behind its test is no part of the
  -- derivation
  induction hsize : hi - lo using Nat.strong_induction_on
    generalizing x lo hi fuel cost breaks nest r with
  | _ size ih =>
  subst hsize
  have hsub {x' : Option ℕ} {fuel' lo' hi' cost' nest' : ℕ} {breaks' : List ℕ}
      {r' : WcetOutcome × List ℕ} (hlo : lo < lo') (hhi : hi' ≤ hi)
      (hr : Region Eq chunk.ops x' lo' hi') (hx : ∀ k, x' = some k → hi' < k)
      (h : wcetRegionAt chunk cm false extra fuel' lo' hi' cost' breaks' nest' = .ok r') :
      Covered chunk cm extra x' lo' hi' cost' breaks' r' := by
    have hle := hr.le
    rcases hle.eq_or_lt with rfl | hlt
    · exact .nil h hx
    · exact ih (hi' - lo') (by omega) hr hx h rfl
  have hhi {e : ℕ} (he : e ≤ hi) : ∀ k, x = some k → e < k :=
    fun k hk => he.trans_lt (hx k hk)
  cases hr with
  | nil => exact .nil h hx
  | leaf hop hd rest =>
    have hle := rest.le
    obtain ⟨f, c, hc, h⟩ := wcetRegionAt_op h hle hop
    rcases wcetOp_leaf hd with ⟨hnext, heq⟩ | heq
    · cases heq.symm.trans h
      exact .halt hx hle hop hnext hc
    · rw [heq] at h
      exact .goto hx hle hop (fun q => next_leaf hd) hc (hsub (Nat.lt_succ_self lo) le_rfl rest hx h)
  | «break» hop rest =>
    have hle := rest.le
    obtain ⟨f, c, hc, h⟩ := wcetRegionAt_op h hle hop
    cases h
    exact .break hle (hx _ rfl) hop hc
  | breakIf hop rest =>
    have hle := rest.le
    obtain ⟨f, c, hc, h⟩ := wcetRegionAt_op h hle hop
    exact .breakIf hle (hx _ rfl) hop hc (hsub (Nat.lt_succ_self lo) le_rfl rest hx h)
  | @ifThen _ _ e _ hif body hend rest =>
    have hle := body.le
    have hle' := rest.le
    have hlen := (List.getElem?_eq_some_iff.mp hend).1
    obtain ⟨f, c, hc, h⟩ := wcetRegionAt_op h (by omega) hif
    rw [wcetOp, body.elseBefore_none hif] at h
    obtain ⟨r', hbody, h⟩ := bind_eq_ok h
    obtain ⟨c', hc', h⟩ := bind_eq_ok h
    rw [decide_eq_true hlen] at hc'
    exact .ifThen hx hle' hif body hend hc (delimiterCost_covers hc')
      (hsub (by omega) (by omega) body (hhi (by omega)) hbody)
      (hsub (by omega) le_rfl rest hx h)
  | @ifElse _ _ m t e _ hif thenBody helse hown elseBody hend rest =>
    subst hown
    have hle := thenBody.le
    have hle' := elseBody.le
    have hle'' := rest.le
    have hlen := (List.getElem?_eq_some_iff.mp hend).1
    obtain ⟨f, c, hc, h⟩ := wcetRegionAt_op h (by omega) hif
    rw [wcetOp, elseBefore_some helse] at h
    obtain ⟨r₁, hthen, h⟩ := bind_eq_ok h
    obtain ⟨r₂, helse', h⟩ := bind_eq_ok h
    obtain ⟨e₁, he₁, h⟩ := bind_eq_ok h
    obtain ⟨e₂, he₂, h⟩ := bind_eq_ok h
    rw [decide_eq_true hlen] at he₂
    refine .ifElse hx hle'' hif thenBody helse elseBody hend hc (opWcetCycles_covers he₁)
      (delimiterCost_covers he₂) (hsub (by omega) (by omega) thenBody (hhi (by omega)) hthen)
      (hsub (by omega) (by omega) elseBody (hhi (by omega)) helse') rfl (fun h₁ h₂ => ?_)
      fun hfalls => ?_
    · rw [h₁, h₂] at h
      exact (Except.ok.inj h).symm
    · rw [if_neg] at h
      · exact hsub (by omega) le_rfl rest hx h
      · rw [Bool.and_eq_true, Bool.not_eq_true', Bool.not_eq_true']
        rintro ⟨h₁, h₂⟩
        rw [h₁, h₂] at hfalls
        rcases hfalls with h | h <;> cases h
  | @loop _ _ m _ hloop body hend rest =>
    have hle := body.le
    have hle' := rest.le
    obtain ⟨f, c, hc, h⟩ := wcetRegionAt_op h (by omega) hloop
    rw [wcetOp] at h
    obtain ⟨⟨⟨B, falls⟩, loopBreaks⟩, hwalk, h⟩ := bind_eq_ok h
    rw [Nat.add_sub_cancel] at hwalk
    have hbody : Covered chunk cm extra (some (m + 1)) (lo + 1) m 0 [] (⟨B, falls⟩, loopBreaks) :=
      hsub (by omega) (by omega) body (fun k hk => by cases hk; omega) hwalk
    obtain ⟨new, hnew, hbreaks⟩ := hbody.breaks
    cases falls with
    | false =>
      have hno : ¬Arrives chunk.ops (lo + 1) m m := fun harr =>
        Bool.false_ne_true (hbody.falls harr)
      have hinner := Weighs.single_pass hbody.weighs hno
      cases loopBreaks with
      | nil =>
        cases h
        refine .loop_stays hx hle' hloop body hend hc hinner fun harr => ?_
        exact hbreaks (m + 1) rfl harr (List.append_eq_nil_iff.mp hnew.symm).2
      | cons b bs =>
        obtain ⟨n, hn, h⟩ := bind_eq_ok h
        obtain ⟨e, he, h⟩ := bind_eq_ok h
        cases hn
        cases he
        refine .loop hx hle' hloop body hend hc (fun es htrail hes hkeeps => ?_)
          (hsub (by omega) le_rfl rest hx h)
        have hweight := ((hinner es htrail hes hkeeps).add (.zero (A := 0))).mul (le_refl 1)
        rw [Nat.add_zero, Nat.one_mul] at hweight
        exact hweight.trans_le (le_max_right _ _)
    | true =>
      simp only [Bool.not_true, Bool.and_false, Bool.or_false, Bool.false_and, Bool.true_and,
        Bool.false_eq_true, if_false, Nat.add_sub_cancel, isEndLoop_eq_true hend] at h
      obtain ⟨n, hn, h⟩ := bind_eq_ok h
      obtain ⟨e, he, h⟩ := bind_eq_ok h
      have hbound := iterationCount_ok hn
      obtain ⟨htest, hroom, -⟩ := extractLoopIterationBound_shape hbound hloop
      obtain ⟨f', H, hH, hwalk'⟩ := wcetRegionAt_test htest hroom body hwalk
      have htail := (htest.split body hroom).2
      have hexit : ∀ k, some (m + 1) = some k → m < k := fun k hk => by cases hk; omega
      obtain ⟨new', hnew', -⟩ := (hsub (by unfold loopHeader; omega) (by omega) htail hexit
        hwalk').breaks
      have hmax : H ≤ loopBreaks.foldl max 0 := by
        rw [show loopBreaks = H :: new' from hnew']
        exact le_foldl_max H new'
      exact .loop hx hle' hloop body hend hc (Weighs.counted hloop body htest hroom hend
        (delimiterCost_covers he) hbound hbody.weighs (hH.trans_le hmax))
        (hsub (by omega) le_rfl rest hx h)

theorem wcetRegion_covers {start stop n : ℕ} {es : List ℕ}
    (hr : Region Eq chunk.ops none start stop)
    (h : wcetRegion chunk cm false extra start stop = .ok n) (htrail : Trail chunk.ops start es)
    (hes : ∀ p ∈ es, p < stop)
    (hkeeps : KeepsBounds chunk.ops (extractLoopIterationBound chunk) es) :
    Saturating.Covers u32Max n (weight (priceAt chunk cm extra) es) := by
  obtain ⟨r, hwalk, h⟩ := bind_eq_ok h
  cases h
  have hcovers := (wcetRegionAt_covers hr (by rintro _ ⟨⟩) hwalk).weighs 0 .zero es htrail hes hkeeps
  rwa [Nat.zero_add] at hcovers

/-! ## Segments -/

/-- A range is cut behind the given positions into sequences of blocks. -/
inductive Segments (ops : List Op) : ℕ → ℕ → List ℕ → Prop
  | nil {lo hi : ℕ} (hr : Region Eq ops none lo hi) : Segments ops lo hi []
  | cons {lo hi y : ℕ} {ys : List ℕ} (hy : ops[y]? = some .yield)
      (hr : ∀ e, e = y ∨ e = y + 1 → Region Eq ops none lo e) (hrest : Segments ops (y + 1) hi ys) :
      Segments ops lo hi (y :: ys)

/-- A block in front of a range that is cut. -/
theorem Segments.prepend {ops : List Op} {ys : List ℕ} (h : Segments ops m hi ys)
    (hcat : ∀ e, Region Eq ops none m e → Region Eq ops none lo e) : Segments ops lo hi ys := by
  cases h with
  | nil hr => exact .nil (hcat _ hr)
  | cons hy hr hrest => exact .cons hy (fun e he => hcat e (hr e he)) hrest

/-- The search for yields over a list that begins at a position. -/
def yieldsFrom (ops : List Op) (lo : ℕ) (depth : ℤ) : Option (List ℕ) :=
  topLevelYields lo depth (ops.drop lo)

section Yields

variable {ops : List Op} {depth : ℤ} {ys : List ℕ}

theorem yieldsFrom_open (hop : ops[lo]? = some op) (ho : (∃ t, op = .ifOp t) ∨ ∃ t, op = .loop t) :
    yieldsFrom ops lo depth = yieldsFrom ops (lo + 1) (depth + 1) := by
  unfold yieldsFrom
  rw [drop_of_getElem? hop]
  rcases ho with ⟨t, rfl⟩ | ⟨t, rfl⟩ <;> rfl

theorem yieldsFrom_close (hop : ops[lo]? = some op) (ho : op = .endIf ∨ ∃ t, op = .endLoop t) :
    yieldsFrom ops lo depth = yieldsFrom ops (lo + 1) (depth - 1) := by
  unfold yieldsFrom
  rw [drop_of_getElem? hop]
  rcases ho with rfl | ⟨t, rfl⟩ <;> rfl

theorem yieldsFrom_yield (hop : ops[lo]? = some .yield) :
    yieldsFrom ops lo depth =
      if depth ≠ 0 then none else (yieldsFrom ops (lo + 1) depth).map (lo :: ·) := by
  unfold yieldsFrom
  rw [drop_of_getElem? hop]
  rfl

theorem yieldsFrom_leaf (hop : ops[lo]? = some op) (hd : op.isDelimiter = false)
    (hy : op ≠ .yield) : yieldsFrom ops lo depth = yieldsFrom ops (lo + 1) depth := by
  unfold yieldsFrom
  rw [drop_of_getElem? hop]
  cases op <;> first
    | rfl
    | exact absurd rfl hy
    | cases hd

theorem yieldsFrom_skip {t : ℕ} (hop : ops[lo]? = some op)
    (ho : op = .elseOp t ∨ op = .break t ∨ op = .breakIf t) :
    yieldsFrom ops lo depth = yieldsFrom ops (lo + 1) depth := by
  unfold yieldsFrom
  rw [drop_of_getElem? hop]
  rcases ho with rfl | rfl | rfl <;> rfl

/-- The search finds every yield. -/
theorem mem_of_topLevelYields {l : List Op} {ip k : ℕ} (h : topLevelYields ip depth l = some ys)
    (hk : l[k]? = some .yield) : ip + k ∈ ys := by
  fun_induction topLevelYields ip depth l generalizing ys k with
  | case1 => cases hk
  | case6 => cases h
  | case7 ip depth rest hd ih =>
    obtain ⟨zs, hzs, rfl⟩ := Option.map_eq_some_iff.mp h
    cases k with
    | zero => exact List.mem_cons_self
    | succ k =>
      refine List.mem_cons_of_mem ip ?_
      have hmem := ih hzs hk
      rwa [Nat.add_assoc, Nat.add_comm 1 k] at hmem
  | case8 ip depth op rest _ _ _ _ hy ih =>
    cases k with
    | zero => exact absurd (Option.some.inj hk) hy
    | succ k =>
      have hmem := ih h hk
      rwa [Nat.add_assoc, Nat.add_comm 1 k] at hmem
  | _ =>
    rename_i ih
    cases k with
    | zero => cases hk
    | succ k =>
      have hmem := ih h hk
      rwa [Nat.add_assoc, Nat.add_comm 1 k] at hmem

/-- Inside a block the search goes over a region, or fails at a yield. -/
theorem Region.yieldsFrom_nested (h : Region Eq ops x lo hi) (hd : 0 < depth)
    (hys : yieldsFrom ops lo depth = some ys) : yieldsFrom ops hi depth = some ys := by
  induction h generalizing depth with
  | nil => exact hys
  | @leaf x lo hi op hop hleaf rest ih =>
    by_cases hy : op = .yield
    · rw [hy] at hop
      rw [yieldsFrom_yield hop, if_pos hd.ne'] at hys
      cases hys
    · refine ih hd ?_
      rwa [yieldsFrom_leaf hop hleaf hy] at hys
  | «break» hop rest ih =>
    rw [yieldsFrom_skip hop (.inr (.inl rfl))] at hys
    exact ih hd hys
  | breakIf hop rest ih =>
    rw [yieldsFrom_skip hop (.inr (.inr rfl))] at hys
    exact ih hd hys
  | ifThen hif body hend rest ihb ihr =>
    rw [yieldsFrom_open hif (.inl ⟨_, rfl⟩)] at hys
    have hbody := ihb (by omega) hys
    rw [yieldsFrom_close hend (.inl rfl), Int.add_sub_cancel] at hbody
    exact ihr hd hbody
  | ifElse hif thenBody helse hown elseBody hend rest iht ihe ihr =>
    rw [yieldsFrom_open hif (.inl ⟨_, rfl⟩)] at hys
    have hthen := iht (by omega) hys
    rw [yieldsFrom_skip helse (.inl rfl)] at hthen
    have helse' := ihe (by omega) hthen
    rw [yieldsFrom_close hend (.inl rfl), Int.add_sub_cancel] at helse'
    exact ihr hd helse'
  | loop hloop body hend rest ihb ihr =>
    rw [yieldsFrom_open hloop (.inr ⟨_, rfl⟩)] at hys
    have hbody := ihb (by omega) hys
    rw [yieldsFrom_close hend (.inr ⟨_, rfl⟩), Int.add_sub_cancel] at hbody
    exact ihr hd hbody

/-- **Yields that lie in no block cut the chunk into sequences of blocks.** -/
theorem Region.segments (h : Region Eq ops none lo ops.length)
    (hys : yieldsFrom ops lo 0 = some ys) : Segments ops lo ops.length ys := by
  generalize hx : (none : Option ℕ) = x at h
  generalize hhi : ops.length = hi at h ⊢
  induction h generalizing ys with
  | nil =>
    subst hhi
    unfold yieldsFrom at hys
    rw [List.drop_length] at hys
    cases hys
    exact .nil .nil
  | @leaf x lo hi op hop hleaf rest ih =>
    by_cases hy : op = .yield
    · subst hy
      rw [yieldsFrom_yield hop, if_neg (by rintro h; exact h rfl)] at hys
      obtain ⟨zs, hzs, rfl⟩ := Option.map_eq_some_iff.mp hys
      refine .cons hop (fun e he => ?_) (ih hzs hx hhi)
      rcases he with rfl | rfl
      · exact .nil
      · exact .leaf hop rfl .nil
    · rw [yieldsFrom_leaf hop hleaf hy] at hys
      exact (ih hys hx hhi).prepend fun e hr => .leaf hop hleaf hr
  | «break» hop rest ih => cases hx
  | breakIf hop rest ih => cases hx
  | ifThen hif body hend rest ihb ihr =>
    subst hx
    rw [yieldsFrom_open hif (.inl ⟨_, rfl⟩)] at hys
    have hbody := body.yieldsFrom_nested (by decide) hys
    rw [yieldsFrom_close hend (.inl rfl), Int.add_sub_cancel] at hbody
    exact (ihr hbody rfl hhi).prepend fun e hr => .ifThen hif body hend hr
  | ifElse hif thenBody helse hown elseBody hend rest iht ihe ihr =>
    subst hx
    rw [yieldsFrom_open hif (.inl ⟨_, rfl⟩)] at hys
    have hthen := thenBody.yieldsFrom_nested (by decide) hys
    rw [yieldsFrom_skip helse (.inl rfl)] at hthen
    have helse' := elseBody.yieldsFrom_nested (by decide) hthen
    rw [yieldsFrom_close hend (.inl rfl), Int.add_sub_cancel] at helse'
    exact (ihr helse' rfl hhi).prepend fun e hr => .ifElse hif thenBody helse hown elseBody hend hr
  | loop hloop body hend rest ihb ihr =>
    subst hx
    rw [yieldsFrom_open hloop (.inr ⟨_, rfl⟩)] at hys
    have hbody := body.yieldsFrom_nested (by decide) hys
    rw [yieldsFrom_close hend (.inr ⟨_, rfl⟩), Int.add_sub_cancel] at hbody
    exact (ihr hbody rfl hhi).prepend fun e hr => .loop hloop body hend hr

end Yields

end Keleusma
