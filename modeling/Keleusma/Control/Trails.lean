import Keleusma.Control.Transfers
import Keleusma.Logic.Overflow
import Mathlib.Data.List.Chain

/-!
# Trails

A trail is the list of the positions that control goes through in a chunk, and every instruction on
it has a weight. A loop may have a bound on how often its test lets control into its body
(`KeepsBounds`). `Weighs` says that a number covers the weights of all trails through a region; there
is one rule for each kind of block, so that the weight of a chunk is found along its structure.
-/

namespace Keleusma

/-- Control may go from a position to another. -/
def Flows (ops : List Op) (p p' : ℕ) : Prop := ∃ op, ops[p]? = some op ∧ p' ∈ op.next p

/-- The positions through which control goes from a position on, one after the other. -/
structure Trail (ops : List Op) (lo : ℕ) (es : List ℕ) : Prop where
  chain : es.IsChain (Flows ops)
  start : ∀ p, es.head? = some p → p = lo

/-- The number of instructions in the test of a counted loop, with its `Loop`. -/
def loopHeader : ℕ := 5

/-- Every entry of a loop with a bound lets control through its test no more often than that. -/
def KeepsBounds (ops : List Op) (bound : ℕ → Option ℕ) (es : List ℕ) : Prop :=
  ∀ l t n, ops[l]? = some (.loop t) → bound l = some n →
    ∀ seg, seg <:+: es → l ∉ seg → seg.count (l + loopHeader) ≤ n

variable {ops : List Op} {bound : ℕ → Option ℕ} {x : Option ℕ} {lo m t hi : ℕ} {op : Op}
  {es fs : List ℕ}

theorem KeepsBounds.nil : KeepsBounds ops bound [] := by
  intro l t n _ _ seg hseg _
  rw [List.infix_nil.mp hseg, List.count_nil]
  exact Nat.zero_le n

theorem KeepsBounds.segment (h : KeepsBounds ops bound es) (hin : fs <:+: es) :
    KeepsBounds ops bound fs :=
  fun l t n hl hb seg hseg => h l t n hl hb seg (hseg.trans hin)

namespace Trail

theorem nil : Trail ops lo [] := ⟨List.isChain_nil, by rintro _ ⟨⟩⟩

/-- A trail is at its end, or executes the instruction it begins with and goes on. -/
theorem cases (h : Trail ops lo es) :
    es = [] ∨ ∃ fs, es = lo :: fs ∧ ∀ q, fs.head? = some q → Flows ops lo q ∧ Trail ops q fs := by
  cases es with
  | nil => exact .inl rfl
  | cons p fs =>
    obtain rfl := h.start p rfl
    refine .inr ⟨fs, rfl, fun q hq => ?_⟩
    cases fs with
    | nil => cases hq
    | cons r fs =>
      cases hq
      obtain ⟨hpq, hchain⟩ := List.isChain_cons_cons.mp h.chain
      exact ⟨hpq, hchain, fun p hp => (Option.some.inj hp).symm⟩

/-- Where a trail goes after its first instruction. -/
theorem next {q : ℕ} (h : Trail ops lo (lo :: fs)) (hop : ops[lo]? = some op)
    (hq : fs.head? = some q) : q ∈ op.next lo ∧ Trail ops q fs := by
  rcases h.cases with hnil | ⟨gs, heq, hgs⟩
  · cases hnil
  · cases heq
    obtain ⟨⟨op', hop', hnext⟩, htrail⟩ := hgs q hq
    cases hop.symm.trans hop'
    exact ⟨hnext, htrail⟩

/-- A trail whose first instruction goes on at a fixed position. -/
theorem tail_of (h : Trail ops lo (lo :: fs)) (hop : ops[lo]? = some op)
    (hnext : ∀ q ∈ op.next lo, q = m) : Trail ops m fs := by
  cases fs with
  | nil => exact .nil
  | cons q fs =>
    obtain ⟨hq, htrail⟩ := h.next hop rfl
    exact hnext q hq ▸ htrail

/-- The piece of a trail before a position that it comes to. -/
theorem left (h : Trail ops lo (es ++ fs)) : Trail ops lo es where
  chain := h.chain.left_of_append
  start p hp := h.start p (by rw [List.head?_append, hp, Option.some_or])

/-- The piece of a trail from a position on. -/
theorem right {q : ℕ} (h : Trail ops lo (es ++ q :: fs)) : Trail ops q (q :: fs) :=
  ⟨h.chain.right_of_append, fun _ hp => (Option.some.inj hp).symm⟩

/-- A trail stays in a range of positions, or leaves it for where control may leave it. -/
theorem leaves {E : ℕ → Prop}
    (hstep : ∀ p q, lo ≤ p → p < hi → Flows ops p q → lo ≤ q ∧ q < hi ∨ E q) {p : ℕ}
    (hlo : lo ≤ p) (hhi : p < hi) (h : Trail ops p es) :
    ∃ inner rest, es = inner ++ rest ∧ (∀ q ∈ inner, lo ≤ q ∧ q < hi) ∧
      ∀ q, rest.head? = some q → E q ∧ Trail ops q rest := by
  induction es generalizing p with
  | nil => exact ⟨[], [], rfl, List.forall_mem_nil _, by rintro _ ⟨⟩⟩
  | cons p' es ih =>
    obtain rfl := h.start p' rfl
    rcases h.cases with hnil | ⟨fs, heq, hfs⟩
    · cases hnil
    cases heq
    cases es with
    | nil => exact ⟨[p'], [], rfl, List.forall_mem_singleton.mpr ⟨hlo, hhi⟩, by rintro _ ⟨⟩⟩
    | cons q es =>
      obtain ⟨hflow, htrail⟩ := hfs q rfl
      rcases hstep p' q hlo hhi hflow with hin | hout
      · obtain ⟨inner, rest, heq, hinner, hrest⟩ := ih hin.1 hin.2 htrail
        exact ⟨p' :: inner, rest, by rw [heq, List.cons_append],
          List.forall_mem_cons.mpr ⟨⟨hlo, hhi⟩, hinner⟩, hrest⟩
      · refine ⟨[p'], q :: es, rfl, List.forall_mem_singleton.mpr ⟨hlo, hhi⟩, ?_⟩
        rintro _ ⟨⟩
        exact ⟨hout, htrail⟩

/-- A trail goes through a region and on from its end, if it does not come to the exit of the loop
around. -/
theorem split {s : ℕ} (hr : Region Eq ops x lo hi) (hx : ∀ k, x = some k → s ≤ k)
    (h : Trail ops lo es) (hes : ∀ p ∈ es, p < s) :
    ∃ inner rest, es = inner ++ rest ∧ (∀ p ∈ inner, p < hi) ∧ Trail ops hi rest := by
  rcases hr.le.eq_or_lt with rfl | hlt
  · exact ⟨[], es, rfl, List.forall_mem_nil _, h⟩
  have hstep : ∀ p q, lo ≤ p → p < hi → Flows ops p q → lo ≤ q ∧ q < hi ∨ q = hi ∨ x = some q := by
    rintro p q hlo hhi ⟨op, hop, hq⟩
    rcases hr.next_mem hlo hhi hop hq with hmem | ⟨hexit, -⟩
    · rcases hmem.2.lt_or_eq with hlt | heq
      · exact .inl ⟨hmem.1, hlt⟩
      · exact .inr (.inl heq)
    · exact .inr (.inr hexit)
  obtain ⟨inner, rest, rfl, hinner, hrest⟩ := h.leaves hstep le_rfl hlt
  refine ⟨inner, rest, rfl, fun p hp => (hinner p hp).2, ?_⟩
  cases rest with
  | nil => exact .nil
  | cons q rest =>
    obtain ⟨rfl | hexit, htrail⟩ := hrest q rfl
    · exact htrail
    · have hq := hes q (List.mem_append_right _ List.mem_cons_self)
      exact absurd (hx q hexit) (not_le.mpr hq)

end Trail

/-! ## Weights -/

/-- The weight of a list of positions. -/
def weight (w : ℕ → ℕ) (es : List ℕ) : ℕ := (es.map w).sum

/-- A counter that covers what came before a region goes on to one that covers every trail through
it as well. -/
def Weighs (ops : List Op) (bound : ℕ → Option ℕ) (w : ℕ → ℕ) (cap lo hi before after : ℕ) :
    Prop :=
  ∀ c, Saturating.Covers cap before c → ∀ es, Trail ops lo es → (∀ p ∈ es, p < hi) →
    KeepsBounds ops bound es → Saturating.Covers cap after (c + weight w es)

/-- Control comes from a position through positions before another to a third. -/
def Arrives (ops : List Op) (lo hi q : ℕ) : Prop :=
  ∃ es, Trail ops lo (es ++ [q]) ∧ ∀ p ∈ es, p < hi

variable {w : ℕ → ℕ} {cap c wlo before after A : ℕ}

@[simp] theorem weight_nil : weight w [] = 0 := rfl

@[simp] theorem weight_cons (p : ℕ) : weight w (p :: es) = w p + weight w es := rfl

@[simp] theorem weight_append : weight w (es ++ fs) = weight w es + weight w fs := by
  rw [weight, List.map_append, List.sum_append]
  rfl

namespace Weighs

theorem nil : Weighs ops bound w cap lo lo before before := by
  intro c hc es h hes _
  cases es with
  | nil => exact hc
  | cons p es =>
    obtain rfl := h.start p rfl
    exact absurd (hes p List.mem_cons_self) (lt_irrefl p)

theorem trans_le {after' : ℕ} (h : Weighs ops bound w cap lo hi before after)
    (hle : after ≤ after') : Weighs ops bound w cap lo hi before after' :=
  fun c hc es htrail hes hkeeps => (h c hc es htrail hes hkeeps).trans_le hle

/-- Every trail through a region executes its first instruction, but for the empty one. -/
theorem first (hlo : Saturating.Covers cap wlo (w lo))
    (h : ∀ c, Saturating.Covers cap (Saturating.add cap before wlo) c →
      Saturating.Covers cap after c ∧ ∀ fs, Trail ops lo (lo :: fs) → (∀ p ∈ fs, p < hi) →
        KeepsBounds ops bound fs → Saturating.Covers cap after (c + weight w fs)) :
    Weighs ops bound w cap lo hi before after := by
  intro c hc es htrail hes hkeeps
  obtain ⟨hnone, hsome⟩ := h (c + w lo) (hc.add hlo)
  rcases htrail.cases with rfl | ⟨fs, rfl, -⟩
  · exact hnone.mono (Nat.le_add_right _ _)
  · rw [weight_cons, ← Nat.add_assoc]
    exact hsome fs htrail (fun p hp => hes p (List.mem_cons_of_mem _ hp))
      (hkeeps.segment (List.suffix_cons lo fs).isInfix)

/-- An instruction that goes on at one position. -/
theorem goto (hlo : Saturating.Covers cap wlo (w lo)) (hop : ops[lo]? = some op)
    (hd : ∀ q ∈ op.next lo, q = t)
    (rest : Weighs ops bound w cap t hi (Saturating.add cap before wlo) after) :
    Weighs ops bound w cap lo hi before after :=
  first hlo fun c hc => ⟨rest c hc [] .nil (List.forall_mem_nil _) .nil,
    fun fs htrail hfs hkeeps => rest c hc fs (htrail.tail_of hop hd) hfs hkeeps⟩

/-- An instruction that control leaves only to the exit of the loop around, or not at all. -/
theorem halt (hlo : Saturating.Covers cap wlo (w lo)) (hop : ops[lo]? = some op)
    (hd : ∀ q ∈ op.next lo, hi ≤ q) :
    Weighs ops bound w cap lo hi before (Saturating.add cap before wlo) := by
  refine first hlo fun c hc => ⟨hc, fun fs htrail hfs _ => ?_⟩
  cases fs with
  | nil => exact hc
  | cons q fs =>
    have hq := hd q (htrail.next hop rfl).1
    exact absurd (hfs q List.mem_cons_self) (not_lt.mpr hq)

theorem breakIf {k : ℕ} (hlo : Saturating.Covers cap wlo (w lo))
    (hop : ops[lo]? = some (.breakIf k)) (hk : hi ≤ k)
    (rest : Weighs ops bound w cap (lo + 1) hi (Saturating.add cap before wlo) after) :
    Weighs ops bound w cap lo hi before after := by
  refine first hlo fun c hc => ⟨rest c hc [] .nil (List.forall_mem_nil _) .nil, ?_⟩
  intro fs htrail hfs hkeeps
  cases fs with
  | nil => exact rest c hc [] .nil (List.forall_mem_nil _) .nil
  | cons q fs =>
    obtain ⟨hq, htrail⟩ := htrail.next hop rfl
    rcases List.mem_cons.mp hq with rfl | hq
    · exact rest c hc _ htrail hfs hkeeps
    · obtain rfl := List.mem_singleton.mp hq
      exact absurd (hfs q List.mem_cons_self) (not_lt.mpr hk)

/-- What lies before a region may be added afterwards. -/
theorem shift {B : ℕ} (h : Weighs ops bound w cap lo hi 0 B) (before : ℕ) :
    Weighs ops bound w cap lo hi before (Saturating.add cap before B) := by
  intro c hc es htrail hes hkeeps
  have hes := h 0 .zero es htrail hes hkeeps
  rw [Nat.zero_add] at hes
  exact hc.add hes

/-- A region, and what control comes to from its end. -/
theorem seq {B : ℕ} (hr : Region Eq ops x lo m) (hx : ∀ k, x = some k → hi ≤ k)
    (hbody : Weighs ops bound w cap lo m before B) (hrest : Weighs ops bound w cap m hi B after) :
    Weighs ops bound w cap lo hi before after := by
  intro c hc es htrail hes hkeeps
  obtain ⟨inner, rest, rfl, hinner, hrest'⟩ := htrail.split hr hx hes
  rw [weight_append, ← Nat.add_assoc]
  refine hrest _ (hbody c hc inner htrail.left hinner ?_) rest hrest' ?_ ?_
  · exact hkeeps.segment (List.prefix_append inner rest).isInfix
  · exact fun p hp => hes p (List.mem_append_right _ hp)
  · exact hkeeps.segment (List.suffix_append inner rest).isInfix

/-- A branch without an alternative weighs as if it were taken. -/
theorem ifThen {B wend : ℕ} (hlo : Saturating.Covers cap wlo (w lo))
    (hif : ops[lo]? = some (.ifOp m)) (hr : Region Eq ops x (lo + 1) m)
    (hx : ∀ k, x = some k → hi ≤ k) (body : Weighs ops bound w cap (lo + 1) m 0 B)
    (hend : ops[m]? = some .endIf) (hm : Saturating.Covers cap wend (w m))
    (rest : Weighs ops bound w cap (m + 1) hi
      (Saturating.add cap (Saturating.add cap (Saturating.add cap before wlo) B) wend) after) :
    Weighs ops bound w cap lo hi before after := by
  have hjoin := goto hm hend (fun q hq => List.mem_singleton.mp hq) rest
  have htaken := seq hr hx (shift body (Saturating.add cap before wlo)) hjoin
  refine first hlo fun c hc => ⟨htaken c hc [] .nil (List.forall_mem_nil _) .nil, ?_⟩
  intro fs htrail hfs hkeeps
  cases fs with
  | nil => exact htaken c hc [] .nil (List.forall_mem_nil _) .nil
  | cons q fs =>
    obtain ⟨hq, htrail⟩ := htrail.next hif rfl
    rcases List.mem_cons.mp hq with rfl | hq
    · exact htaken c hc _ htrail hfs hkeeps
    · obtain rfl := List.mem_singleton.mp hq
      -- the branch not taken weighs nothing
      exact hjoin c (hc.add .zero) _ htrail hfs hkeeps

variable (before after) in
/-- A branch with an alternative weighs as the heavier of its two ways, each with the delimiters
it executes. What comes after it counts if one of the two comes to its end. -/
theorem ifElse {T E welse : ℕ} (hlo : Saturating.Covers cap wlo (w lo))
    (hif : ops[lo]? = some (.ifOp (m + 1))) (hthen : Region Eq ops x (lo + 1) m)
    (hx : ∀ k, x = some k → hi ≤ k) (thenBody : Weighs ops bound w cap (lo + 1) m 0 T)
    (helse : ops[m]? = some (.elseOp t)) (hm : Saturating.Covers cap welse (w m))
    (helse' : Region Eq ops x (m + 1) t) (elseBody : Weighs ops bound w cap (m + 1) t 0 E)
    (hafter : ∀ c, Saturating.Covers cap (Saturating.add cap (Saturating.add cap before wlo)
      (max (Saturating.add cap T welse) E)) c → Saturating.Covers cap after c)
    (rest : Arrives ops (lo + 1) m m ∨ Arrives ops (m + 1) t t →
      Weighs ops bound w cap t hi (Saturating.add cap (Saturating.add cap before wlo)
        (max (Saturating.add cap T welse) E)) after) :
    Weighs ops bound w cap lo hi before after := by
  refine first hlo fun c hc => ⟨hafter _ (hc.add .zero), fun fs htrail hfs hkeeps => ?_⟩
  cases fs with
  | nil => exact hafter _ (hc.add .zero)
  | cons q fs =>
    obtain ⟨hq, htrail⟩ := htrail.next hif rfl
    rcases List.mem_cons.mp hq with rfl | hq
    · -- by way of the body and the `Else`
      obtain ⟨inner, outer, heq, hinner, houter⟩ := htrail.split hthen hx hfs
      rw [heq] at htrail hfs hkeeps ⊢
      have hbody := thenBody 0 .zero inner htrail.left hinner
        (hkeeps.segment (List.prefix_append inner outer).isInfix)
      rw [Nat.zero_add] at hbody
      rcases houter.cases with rfl | ⟨gs, rfl, -⟩
      · rw [List.append_nil]
        refine hafter _ (hc.add ?_)
        exact ((hbody.add hm).mono (Nat.le_add_right _ _)).trans_le (le_max_left _ _)
      · have harrives : Arrives ops (lo + 1) m m := by
          refine ⟨inner, ?_, hinner⟩
          rw [← List.singleton_append, ← List.append_assoc] at htrail
          exact htrail.left
        have hgs := houter.tail_of helse fun q hq => List.mem_singleton.mp hq
        rw [weight_append, weight_cons, ← Nat.add_assoc, ← Nat.add_assoc, Nat.add_assoc c]
        refine rest (.inl harrives) _ (hc.add ((hbody.add hm).trans_le (le_max_left _ _))) gs hgs
          (fun p hp => hfs p (List.mem_append_right _ (List.mem_cons_of_mem _ hp))) ?_
        exact hkeeps.segment
          ((List.suffix_cons m gs).trans (List.suffix_append inner (m :: gs))).isInfix
    · -- by way of the alternative
      obtain rfl := List.mem_singleton.mp hq
      obtain ⟨inner, outer, heq, hinner, houter⟩ := htrail.split helse' hx hfs
      rw [heq] at htrail hfs hkeeps ⊢
      have hbody := elseBody 0 .zero inner htrail.left hinner
        (hkeeps.segment (List.prefix_append inner outer).isInfix)
      rw [Nat.zero_add] at hbody
      rcases houter.cases with rfl | ⟨gs, rfl, -⟩
      · rw [List.append_nil]
        exact hafter _ (hc.add (hbody.trans_le (le_max_right _ _)))
      · have harrives : Arrives ops (m + 1) t t := by
          refine ⟨inner, ?_, hinner⟩
          rw [← List.singleton_append, ← List.append_assoc] at htrail
          exact htrail.left
        rw [weight_append, ← Nat.add_assoc]
        refine rest (.inr harrives) _ (hc.add (hbody.trans_le (le_max_right _ _))) _ houter
          (fun p hp => hfs p (List.mem_append_right _ hp)) ?_
        exact hkeeps.segment (List.suffix_append inner (t :: gs)).isInfix

end Weighs

end Keleusma
