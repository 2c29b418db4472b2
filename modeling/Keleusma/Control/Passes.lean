import Keleusma.Control.Trails

/-!
# Passes of a loop

The trails through a loop go round its body: every pass but the last comes to the `EndLoop`, and
the last ends where it is or leaves through a break. A counted loop begins with a test of five
instructions; a pass that lets control through the test meets the first position behind it, so a
bound on how often that happens bounds the number of passes (`Trail.passes`). `Arrives` tells which
ends of a region control comes to at all, with a rule for each kind of block.
-/

namespace Keleusma

variable {ops : List Op} {bound : ℕ → Option ℕ} {x : Option ℕ} {lo m t hi q : ℕ} {op : Op}
  {es fs : List ℕ} {w : ℕ → ℕ} {cap wlo before after B E H : ℕ}

/-! ## Regions by their first instruction -/

theorem Region.tail_leaf {own : ℕ → ℕ → Prop} (h : Region own ops x lo hi) (hlt : lo < hi)
    (hop : ops[lo]? = some op) (hd : op.isDelimiter = false) : Region own ops x (lo + 1) hi := by
  cases h with
  | nil => exact absurd hlt (lt_irrefl lo)
  | leaf _ _ rest => exact rest
  | «break» hop' _ => cases hop.symm.trans hop'; cases hd
  | breakIf hop' _ => cases hop.symm.trans hop'; cases hd
  | ifThen hop' _ _ _ => cases hop.symm.trans hop'; cases hd
  | ifElse hop' _ _ _ _ _ _ => cases hop.symm.trans hop'; cases hd
  | loop hop' _ _ _ => cases hop.symm.trans hop'; cases hd

theorem Region.tail_breakIf {own : ℕ → ℕ → Prop} {k : ℕ} (h : Region own ops x lo hi)
    (hlt : lo < hi) (hop : ops[lo]? = some (.breakIf k)) :
    x = some k ∧ Region own ops x (lo + 1) hi := by
  cases h with
  | nil => exact absurd hlt (lt_irrefl lo)
  | leaf hop' hd _ => cases hop.symm.trans hop'; cases hd
  | «break» hop' _ => cases hop.symm.trans hop'
  | breakIf hop' rest => cases hop.symm.trans hop'; exact ⟨rfl, rest⟩
  | ifThen hop' _ _ _ => cases hop.symm.trans hop'
  | ifElse hop' _ _ _ _ _ _ => cases hop.symm.trans hop'
  | loop hop' _ _ _ => cases hop.symm.trans hop'

/-- The test of a counted loop, which stands behind the `Loop`. -/
structure TestAt (ops : List Op) (lo : ℕ) : Prop where
  var : ∃ v, ops[lo + 1]? = some (.getLocal v)
  limit : ∃ v, ops[lo + 2]? = some (.getLocal v)
  compares : ops[lo + 3]? = some .cmpGe
  breaks : ∃ k, ops[lo + 4]? = some (.breakIf k)

/-- The test is a region of its own, and so is what stands behind it. -/
theorem TestAt.split (h : TestAt ops lo) (body : Region Eq ops (some t) (lo + 1) m)
    (hlt : lo + loopHeader < m) :
    Region Eq ops (some t) (lo + 1) (lo + loopHeader) ∧
      Region Eq ops (some t) (lo + loopHeader) m := by
  unfold loopHeader at *
  obtain ⟨v, hvar⟩ := h.var
  obtain ⟨v', hlimit⟩ := h.limit
  obtain ⟨k, hbreak⟩ := h.breaks
  have h₂ := body.tail_leaf (by omega) hvar rfl
  have h₃ := h₂.tail_leaf (by omega) hlimit rfl
  have h₄ := h₃.tail_leaf (by omega) h.compares rfl
  obtain ⟨hk, h₅⟩ := h₄.tail_breakIf (by omega) hbreak
  cases hk
  exact ⟨.leaf hvar rfl (.leaf hlimit rfl (.leaf h.compares rfl (.breakIf hbreak .nil))), h₅⟩

/-! ## Passes -/

/-- A trail through the body of a loop that comes to the `EndLoop` has let control through the
test. -/
theorem Trail.through_test (htest : Region Eq ops (some (m + 1)) (lo + 1) (lo + loopHeader))
    (hlt : lo + loopHeader < m) (h : Trail ops (lo + 1) (es ++ [m])) (hes : ∀ p ∈ es, p < m) :
    lo + loopHeader ∈ es := by
  obtain ⟨inner, rest, heq, hinner, hrest⟩ := h.split (s := m + 1) htest
    (fun k hk => (Option.some.inj hk).le) (by
      intro p hp
      rcases List.mem_append.mp hp with hp | hp
      · exact (hes p hp).trans (Nat.lt_succ_self m)
      · rw [List.mem_singleton.mp hp]
        exact Nat.lt_succ_self m)
  rcases hrest.cases with rfl | ⟨gs, rfl, -⟩
  · have hm : m ∈ inner := by
      rw [List.append_nil] at heq
      rw [← heq]
      exact List.mem_append_right es (List.mem_singleton_self m)
    exact absurd (hinner m hm) (by omega)
  · have hmem : lo + loopHeader ∈ es ++ [m] := by
      rw [heq]
      exact List.mem_append_right inner List.mem_cons_self
    rcases List.mem_append.mp hmem with hmem | hmem
    · exact hmem
    · exact absurd (List.mem_singleton.mp hmem) (by omega)

/-- A trail through the body of a loop that does not let control through the test stays in it. -/
theorem Trail.in_test (htest : Region Eq ops (some (m + 1)) (lo + 1) (lo + loopHeader))
    (h : Trail ops (lo + 1) es) (hes : ∀ p ∈ es, p < m) (hnot : lo + loopHeader ∉ es) :
    ∀ p ∈ es, p < lo + loopHeader := by
  obtain ⟨inner, rest, rfl, hinner, hrest⟩ := h.split (s := m) htest
    (fun k hk => by cases hk; exact Nat.le_succ m) hes
  rcases hrest.cases with rfl | ⟨gs, rfl, -⟩
  · rw [List.append_nil]
    exact hinner
  · exact absurd (List.mem_append_right inner List.mem_cons_self) hnot

/-- **What a trail that goes round a counted loop weighs.** Every pass that lets control through
the test weighs at most as much as the body with the `EndLoop`, and there is at most one more. -/
theorem Trail.passes (body : Region Eq ops (some (m + 1)) (lo + 1) m) (htest : TestAt ops lo)
    (hlt : lo + loopHeader < m) (hend : ops[m]? = some (.endLoop (lo + 1)))
    (hbody : Weighs ops bound w cap (lo + 1) m 0 B)
    (hhead : Weighs ops bound w cap (lo + 1) (lo + loopHeader) 0 H)
    (h : Trail ops (lo + 1) es) (hes : ∀ p ∈ es, p < m + 1) (hkeeps : KeepsBounds ops bound es) :
    ∃ b c, Saturating.Covers cap B b ∧ Saturating.Covers cap H c ∧
      weight w es ≤ es.count (lo + loopHeader) * (b + w m) + c := by
  have hregion := (htest.split body hlt).1
  -- by induction on the number of steps: the rest of the trail after one pass is shorter
  induction hlen : es.length using Nat.strong_induction_on generalizing es with
  | _ len ih =>
  subst hlen
  obtain ⟨inner, rest, rfl, hinner, hrest⟩ :=
    h.split (s := m + 1) body (fun k hk => (Option.some.inj hk).le) hes
  have hpass := hbody 0 .zero inner h.left hinner
    (hkeeps.segment (List.prefix_append inner rest).isInfix)
  rw [Nat.zero_add] at hpass
  rcases hrest.cases with rfl | ⟨gs, rfl, -⟩
  · rw [List.append_nil] at hkeeps ⊢
    by_cases hmem : lo + loopHeader ∈ inner
    · refine ⟨weight w inner, 0, hpass, .zero, ?_⟩
      have hpos : 1 ≤ inner.count (lo + loopHeader) := List.count_pos_iff.mpr hmem
      calc weight w inner ≤ weight w inner + w m := Nat.le_add_right _ _
        _ ≤ inner.count (lo + loopHeader) * (weight w inner + w m) :=
          Nat.le_mul_of_pos_left _ hpos
    · have hweight := hhead 0 .zero inner h.left (h.left.in_test hregion hinner hmem) hkeeps
      rw [Nat.zero_add] at hweight
      exact ⟨0, weight w inner, .zero, hweight, Nat.le_add_left _ _⟩
  · have hpre : inner ++ m :: gs = inner ++ [m] ++ gs := by
      rw [List.append_assoc, List.singleton_append]
    have hmem : lo + loopHeader ∈ inner := by
      rw [hpre] at h
      exact h.left.through_test hregion hlt hinner
    have hgs := hrest.tail_of hend fun q hq => List.mem_singleton.mp hq
    have hsuffix : gs <:+: inner ++ m :: gs :=
      ((List.suffix_cons m gs).trans (List.suffix_append inner (m :: gs))).isInfix
    have hshort : gs.length < (inner ++ m :: gs).length := by
      rw [List.length_append, List.length_cons]
      omega
    obtain ⟨b, c, hb, hc, hle⟩ := ih gs.length hshort hgs
      (fun p hp => hes p (hsuffix.subset hp)) (hkeeps.segment hsuffix) rfl
    refine ⟨max (weight w inner) b, c, ?_, hc, ?_⟩
    · rcases max_choice (weight w inner) b with hmax | hmax
      · rwa [hmax]
      · rwa [hmax]
    have hpos : 1 ≤ inner.count (lo + loopHeader) := List.count_pos_iff.mpr hmem
    have hcount : (inner ++ m :: gs).count (lo + loopHeader) =
        inner.count (lo + loopHeader) + gs.count (lo + loopHeader) := by
      rw [List.count_append, List.count_cons_of_ne (by omega)]
    rw [hcount, weight_append, weight_cons, Nat.add_mul]
    have hfirst : weight w inner + w m ≤
        inner.count (lo + loopHeader) * (max (weight w inner) b + w m) :=
      (Nat.add_le_add_right (le_max_left _ _) _).trans (Nat.le_mul_of_pos_left _ hpos)
    have hlater : gs.count (lo + loopHeader) * (b + w m) ≤
        gs.count (lo + loopHeader) * (max (weight w inner) b + w m) :=
      Nat.mul_le_mul_left _ (Nat.add_le_add_right (le_max_right _ _) _)
    omega

/-- The last pass of a trail that leaves a loop leaves the body. -/
theorem Trail.last_pass (hend : ops[m]? = some (.endLoop (lo + 1)))
    (h : Trail ops (lo + 1) (es ++ [q])) (hes : ∀ p ∈ es, p < m + 1) :
    Arrives ops (lo + 1) m q := by
  induction hlen : es.length using Nat.strong_induction_on generalizing es with
  | _ len ih =>
  subst hlen
  by_cases hm : m ∈ es
  · obtain ⟨s, gs, rfl⟩ := List.append_of_mem hm
    rw [List.append_assoc, List.cons_append] at h
    have hgs := h.right.tail_of hend fun q hq => List.mem_singleton.mp hq
    refine ih gs.length ?_ hgs (fun p hp => hes p ?_) rfl
    · rw [List.length_append, List.length_cons]
      omega
    · exact List.mem_append_right s (List.mem_cons_of_mem m hp)
  · refine ⟨es, h, fun p hp => (Nat.le_of_lt_succ (hes p hp)).lt_of_ne ?_⟩
    rintro rfl
    exact hm hp

/-- A trail stays within a loop, or leaves it. -/
theorem Trail.loop (body : Region Eq ops (some (m + 1)) (lo + 1) m)
    (hend : ops[m]? = some (.endLoop (lo + 1))) (h : Trail ops (lo + 1) es) :
    ∃ inner rest, es = inner ++ rest ∧ (∀ p ∈ inner, lo + 1 ≤ p ∧ p < m + 1) ∧
      Trail ops (m + 1) rest ∧ (rest ≠ [] → Arrives ops (lo + 1) m (m + 1)) := by
  have hle := body.le
  have hstep : ∀ p q, lo + 1 ≤ p → p < m + 1 → Flows ops p q →
      lo + 1 ≤ q ∧ q < m + 1 ∨ q = m + 1 := by
    rintro p q hlo hhi ⟨op, hop, hq⟩
    rcases (Nat.le_of_lt_succ hhi).lt_or_eq with hlt | rfl
    · rcases body.next_mem hlo hlt hop hq with hmem | ⟨hexit, -⟩
      · exact .inl ⟨hmem.1, Nat.lt_succ_of_le hmem.2⟩
      · exact .inr (Option.some.inj hexit).symm
    · cases hend.symm.trans hop
      obtain rfl := List.mem_singleton.mp hq
      exact .inl ⟨le_rfl, Nat.lt_succ_of_le hle⟩
  obtain ⟨inner, rest, rfl, hinner, hrest⟩ := h.leaves hstep le_rfl (Nat.lt_succ_of_le hle)
  refine ⟨inner, rest, rfl, hinner, ?_, fun hne => ?_⟩
  · cases rest with
    | nil => exact .nil
    | cons q rest =>
      obtain ⟨rfl, htrail⟩ := hrest q rfl
      exact htrail
  · cases rest with
    | nil => exact absurd rfl hne
    | cons q rest =>
      obtain ⟨rfl, -⟩ := hrest q rfl
      rw [← List.singleton_append, ← List.append_assoc] at h
      exact h.left.last_pass hend fun p hp => (hinner p hp).2

namespace Weighs

/-- A loop weighs what covers the trails that stay within it. What comes behind it counts if
control leaves it. -/
theorem loop {X : ℕ} (hlo : Saturating.Covers cap wlo (w lo))
    (hop : ops[lo]? = some (.loop (m + 1))) (body : Region Eq ops (some (m + 1)) (lo + 1) m)
    (hend : ops[m]? = some (.endLoop (lo + 1)))
    (hinner : ∀ es, Trail ops (lo + 1) es → (∀ p ∈ es, lo + 1 ≤ p ∧ p < m + 1) →
      KeepsBounds ops bound es → Saturating.Covers cap X (weight w es))
    (hafter : ∀ c, Saturating.Covers cap
      (Saturating.add cap (Saturating.add cap before wlo) X) c → Saturating.Covers cap after c)
    (rest : Arrives ops (lo + 1) m (m + 1) → Weighs ops bound w cap (m + 1) hi
      (Saturating.add cap (Saturating.add cap before wlo) X) after) :
    Weighs ops bound w cap lo hi before after := by
  refine first hlo fun c hc => ⟨hafter _ (hc.add .zero), fun fs htrail hfs hkeeps => ?_⟩
  have hbody := htrail.tail_of hop fun q hq => List.mem_singleton.mp hq
  obtain ⟨inner, outer, rfl, hin, houter, harrives⟩ := hbody.loop body hend
  have hweight := hc.add (hinner inner hbody.left hin
    (hkeeps.segment (List.prefix_append inner outer).isInfix))
  rw [weight_append, ← Nat.add_assoc]
  by_cases hnil : outer = []
  · subst hnil
    exact hafter _ hweight
  · exact rest (harrives hnil) _ hweight outer houter
      (fun p hp => hfs p (List.mem_append_right _ hp))
      (hkeeps.segment (List.suffix_append inner outer).isInfix)

/-- The trails within a loop whose body control does not come to the end of. -/
theorem single_pass (hbody : Weighs ops bound w cap (lo + 1) m 0 B)
    (hnot : ¬Arrives ops (lo + 1) m m) (es : List ℕ) (h : Trail ops (lo + 1) es)
    (hes : ∀ p ∈ es, lo + 1 ≤ p ∧ p < m + 1) (hkeeps : KeepsBounds ops bound es) :
    Saturating.Covers cap B (weight w es) := by
  have hm : m ∉ es := by
    intro hm
    obtain ⟨s, gs, rfl, hs⟩ := List.eq_append_cons_of_mem hm
    rw [← List.singleton_append, ← List.append_assoc] at h
    refine hnot ⟨s, h.left, fun p hp => ?_⟩
    have hp' := hes p (List.mem_append_left _ hp)
    refine (Nat.le_of_lt_succ hp'.2).lt_of_ne ?_
    rintro rfl
    exact hs hp
  have hweight := hbody 0 .zero es h (fun p hp => by
    refine (Nat.le_of_lt_succ (hes p hp).2).lt_of_ne ?_
    rintro rfl
    exact hm hp) hkeeps
  rwa [Nat.zero_add] at hweight

/-- The trails within a counted loop. -/
theorem counted {n wend : ℕ} (hop : ops[lo]? = some (.loop (m + 1)))
    (body : Region Eq ops (some (m + 1)) (lo + 1) m) (htest : TestAt ops lo)
    (hlt : lo + loopHeader < m) (hend : ops[m]? = some (.endLoop (lo + 1)))
    (hm : Saturating.Covers cap wend (w m)) (hbound : bound lo = some n)
    (hbody : Weighs ops bound w cap (lo + 1) m 0 B)
    (hhead : Weighs ops bound w cap (lo + 1) (lo + loopHeader) 0 H) (es : List ℕ)
    (h : Trail ops (lo + 1) es) (hes : ∀ p ∈ es, lo + 1 ≤ p ∧ p < m + 1)
    (hkeeps : KeepsBounds ops bound es) :
    Saturating.Covers cap
      (Saturating.add cap (Saturating.mul cap (Saturating.add cap B wend) n) H)
      (weight w es) := by
  obtain ⟨b, c, hb, hc, hle⟩ := h.passes body htest hlt hend hbody hhead
    (fun p hp => (hes p hp).2) hkeeps
  have hout : lo ∉ es := fun hlo => absurd (hes lo hlo).1 (by omega)
  have hcount := hkeeps lo (m + 1) n hop hbound es List.infix_rfl hout
  exact (((hb.add hm).mul hcount).add hc).mono hle

end Weighs

/-! ## Which ends control comes to -/

namespace Arrives

theorem first (h : Arrives ops lo hi q) (hlt : lo < hi) (hq : hi ≤ q) :
    ∃ fs, Trail ops lo (lo :: (fs ++ [q])) ∧ ∀ p ∈ fs, p < hi := by
  obtain ⟨es, htrail, hes⟩ := h
  cases es with
  | nil =>
    have := htrail.start q rfl
    omega
  | cons p es =>
    obtain rfl := htrail.start p rfl
    exact ⟨es, htrail, fun p hp => hes p (List.mem_cons_of_mem _ hp)⟩

/-- Control begins where it begins. -/
theorem here : Arrives ops lo hi lo :=
  ⟨[], ⟨List.isChain_singleton lo, by rintro _ ⟨⟩; rfl⟩, List.forall_mem_nil _⟩

theorem nil (h : Arrives ops lo lo q) : q = lo := by
  obtain ⟨es, htrail, hes⟩ := h
  cases es with
  | nil => exact htrail.start q rfl
  | cons p es =>
    obtain rfl := htrail.start p rfl
    exact absurd (hes p List.mem_cons_self) (lt_irrefl p)

theorem goto (h : Arrives ops lo hi q) (hlt : lo < hi) (hq : hi ≤ q) (hop : ops[lo]? = some op)
    (hd : ∀ q ∈ op.next lo, q = t) : Arrives ops t hi q := by
  obtain ⟨fs, htrail, hfs⟩ := h.first hlt hq
  exact ⟨fs, htrail.tail_of hop hd, hfs⟩

/-- Control goes from the first instruction to where the rest begins. -/
theorem next (h : Arrives ops lo hi q) (hlt : lo < hi) (hq : hi ≤ q) (hop : ops[lo]? = some op) :
    ∃ r ∈ op.next lo, (r = q ∨ r < hi) ∧ Arrives ops r hi q := by
  obtain ⟨fs, htrail, hfs⟩ := h.first hlt hq
  cases fs with
  | nil =>
    obtain ⟨hr, hrest⟩ := htrail.next hop rfl
    exact ⟨q, hr, .inl rfl, [], hrest, List.forall_mem_nil _⟩
  | cons r fs =>
    obtain ⟨hr, hrest⟩ := htrail.next hop rfl
    exact ⟨r, hr, .inr (hfs r List.mem_cons_self), r :: fs, hrest, hfs⟩

/-- Control comes to the end of a region and from there on, or leaves through a break. -/
theorem seq (hr : Region Eq ops x lo m) (hx : ∀ k, x = some k → hi < k) (hm : m ≤ hi)
    (h : Arrives ops lo hi q) (hq : q = hi ∨ x = some q) :
    x = some q ∧ Arrives ops lo m q ∨ Arrives ops lo m m ∧ Arrives ops m hi q := by
  obtain ⟨es, htrail, hes⟩ := h
  have hqhi : hi ≤ q := by
    rcases hq with rfl | hq
    · exact le_rfl
    · exact (hx q hq).le
  obtain ⟨inner, rest, rfl, hinner, hrest⟩ := htrail.left.split hr (fun k hk => (hx k hk).le) hes
  cases rest with
  | nil =>
    rw [List.append_nil] at htrail
    rcases hq with rfl | hq
    · -- the exit lies further on, so that control can only have come to the end of the region
      obtain ⟨front, back, heq, hfront, hback⟩ := htrail.split (s := q + 1) hr hx (by
        intro p hp
        rcases List.mem_append.mp hp with hp | hp
        · rw [List.append_nil] at hes
          exact (hes p hp).trans (Nat.lt_succ_self q)
        · rw [List.mem_singleton.mp hp]
          exact Nat.lt_succ_self q)
      have hmem : m ∈ inner ++ [q] := by
        rcases hback.cases with rfl | ⟨gs, rfl, -⟩
        · rw [List.append_nil] at heq
          have hqm := hfront q (by
            rw [← heq]
            exact List.mem_append_right inner (List.mem_singleton_self q))
          exact absurd hqm (not_lt.mpr hm)
        · rw [heq]
          exact List.mem_append_right front List.mem_cons_self
      rcases List.mem_append.mp hmem with hmem | hmem
      · exact absurd (hinner m hmem) (lt_irrefl m)
      · obtain rfl := List.mem_singleton.mp hmem
        exact .inr ⟨⟨inner, htrail, hinner⟩, .here⟩
    · exact .inl ⟨hq, inner, htrail, hinner⟩
  | cons r rest =>
    obtain rfl := hrest.start r rfl
    rw [List.append_assoc, List.cons_append] at htrail
    refine .inr ⟨⟨inner, ?_, hinner⟩, r :: rest, htrail.right, fun p hp => ?_⟩
    · rw [← List.singleton_append, ← List.append_assoc] at htrail
      exact htrail.left
    · exact hes p (List.mem_append_right inner hp)

theorem «break» {k : ℕ} (h : Arrives ops lo hi q) (hlt : lo < hi) (hq : hi ≤ q)
    (hop : ops[lo]? = some (.break k)) (hk : hi < k) : q = k := by
  obtain ⟨r, hr, hin, -⟩ := h.next hlt hq hop
  obtain rfl := List.mem_singleton.mp hr
  rcases hin with rfl | hin
  · rfl
  · exact absurd hin (by omega)

theorem breakIf {k : ℕ} (h : Arrives ops lo hi q) (hlt : lo < hi) (hq : hi ≤ q)
    (hop : ops[lo]? = some (.breakIf k)) (hk : hi < k) :
    q = k ∨ Arrives ops (lo + 1) hi q := by
  obtain ⟨r, hr, hin, hrest⟩ := h.next hlt hq hop
  rcases List.mem_cons.mp hr with rfl | hr
  · exact .inr hrest
  · obtain rfl := List.mem_singleton.mp hr
    rcases hin with rfl | hin
    · exact .inl rfl
    · exact absurd hin (by omega)

theorem ifThen (h : Arrives ops lo hi q) (hlt : lo < hi) (hx : ∀ k, x = some k → hi < k)
    (hq : q = hi ∨ x = some q) (hif : ops[lo]? = some (.ifOp m))
    (hr : Region Eq ops x (lo + 1) m) (hm : m < hi) (hend : ops[m]? = some .endIf) :
    x = some q ∧ Arrives ops (lo + 1) m q ∨ Arrives ops (m + 1) hi q := by
  have hqhi : hi ≤ q := by
    rcases hq with rfl | hq
    · exact le_rfl
    · exact (hx q hq).le
  have hjoin (h : Arrives ops m hi q) : Arrives ops (m + 1) hi q :=
    h.goto hm hqhi hend fun q hq => List.mem_singleton.mp hq
  obtain ⟨r, hmem, -, hrest⟩ := h.next hlt hqhi hif
  rcases List.mem_cons.mp hmem with rfl | hmem
  · exact (hrest.seq hr hx hm.le hq).imp_right fun h => hjoin h.2
  · obtain rfl := List.mem_singleton.mp hmem
    exact .inr (hjoin hrest)

theorem ifElse (h : Arrives ops lo hi q) (hlt : lo < hi) (hx : ∀ k, x = some k → hi < k)
    (hq : q = hi ∨ x = some q) (hif : ops[lo]? = some (.ifOp (m + 1)))
    (hthen : Region Eq ops x (lo + 1) m) (helse : ops[m]? = some (.elseOp t))
    (helse' : Region Eq ops x (m + 1) t) (ht : t < hi) (hend : ops[t]? = some .endIf) :
    x = some q ∧ (Arrives ops (lo + 1) m q ∨ Arrives ops (m + 1) t q) ∨
      (Arrives ops (lo + 1) m m ∨ Arrives ops (m + 1) t t) ∧ Arrives ops (t + 1) hi q := by
  have hqhi : hi ≤ q := by
    rcases hq with rfl | hq
    · exact le_rfl
    · exact (hx q hq).le
  have hmt := helse'.le
  have hjoin (h : Arrives ops t hi q) : Arrives ops (t + 1) hi q :=
    h.goto ht hqhi hend fun q hq => List.mem_singleton.mp hq
  obtain ⟨r, hmem, -, hrest⟩ := h.next hlt hqhi hif
  rcases List.mem_cons.mp hmem with rfl | hmem
  · rcases hrest.seq hthen hx (by omega) hq with ⟨hexit, h⟩ | ⟨hm, h⟩
    · exact .inl ⟨hexit, .inl h⟩
    · exact .inr ⟨.inl hm, hjoin (h.goto (by omega) hqhi helse
        fun q hq => List.mem_singleton.mp hq)⟩
  · obtain rfl := List.mem_singleton.mp hmem
    rcases hrest.seq helse' hx ht.le hq with ⟨hexit, h⟩ | ⟨hm, h⟩
    · exact .inl ⟨hexit, .inr h⟩
    · exact .inr ⟨.inr hm, hjoin h⟩

theorem loop (h : Arrives ops lo hi q) (hlt : lo < hi) (hq : hi ≤ q)
    (hop : ops[lo]? = some (.loop (m + 1))) (body : Region Eq ops (some (m + 1)) (lo + 1) m)
    (hend : ops[m]? = some (.endLoop (lo + 1))) (hm : m < hi) :
    Arrives ops (lo + 1) m (m + 1) ∧ Arrives ops (m + 1) hi q := by
  obtain ⟨es, htrail, hes⟩ := h.goto hlt hq hop fun q hq => List.mem_singleton.mp hq
  obtain ⟨inner, rest, rfl, hinner, hrest, harrives⟩ := htrail.left.loop body hend
  cases rest with
  | nil =>
    rw [List.append_nil] at htrail hes
    obtain ⟨front, back, heq, hfront, hback, harrives⟩ := htrail.loop body hend
    have hmem : q ∈ back := by
      have hmem : q ∈ front ++ back := by
        rw [← heq]
        exact List.mem_append_right inner (List.mem_singleton_self q)
      rcases List.mem_append.mp hmem with hmem | hmem
      · exact absurd (hfront q hmem).2 (by omega)
      · exact hmem
    refine ⟨harrives (List.ne_nil_of_mem hmem), ?_⟩
    rcases hback.cases with rfl | ⟨gs, rfl, -⟩
    · cases hmem
    have hout : m + 1 ∈ inner ++ [q] := by
      rw [heq]
      exact List.mem_append_right front List.mem_cons_self
    rcases List.mem_append.mp hout with hout | hout
    · exact absurd (hinner _ hout).2 (lt_irrefl _)
    · rw [List.mem_singleton.mp hout]
      exact .here
  | cons r rest =>
    obtain rfl := hrest.start r rfl
    rw [List.append_assoc, List.cons_append] at htrail
    exact ⟨harrives (List.cons_ne_nil _ _), (m + 1) :: rest, htrail.right,
      fun p hp => hes p (List.mem_append_right inner hp)⟩

end Arrives

end Keleusma
