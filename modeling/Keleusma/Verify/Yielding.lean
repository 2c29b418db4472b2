import Mathlib.Data.List.Forall2
import Keleusma.Verify.RunOff

/-!
# What the coverage walk establishes

The coverage walk goes over `Return` as over any other instruction. `returnStatesAt` lists the
states in which it does so. When the walk passes every `Return` after a yield, control reaches none
before a yield, and no break or end of a region before what the walk reports there
(`Region.covers`).
-/

namespace Keleusma

variable {ops : List Op} {always always' : List ℕ} {op : Op} {x : Option ℕ} {lo m hi : ℕ}
  {fuel depth : ℕ} {h h' : Bool} {bs : List Bool}

/-- The instruction yields, or calls a chunk that yields on every path. -/
def Op.yields (always : List ℕ) : Op → Bool
  | .yield => true
  | .call callee _ => decide (callee ∈ always)
  | _ => false

/-- The positions of the `Return`s that the walk goes over, and whether it has yielded there. -/
def returnStatesAt (ops : List Op) (always : List ℕ) : ℕ → ℕ → ℕ → Bool → ℕ → List (ℕ × Bool)
  | 0, _, _, _, _ => []
  | fuel + 1, ip, stop, hasYielded, depth =>
    if maxRegionDepth < depth then []
    else if min stop ops.length ≤ ip then []
    else
      match ops[ip]? with
      | none => []
      | some .return =>
        (ip, hasYielded) :: returnStatesAt ops always fuel (ip + 1) stop hasYielded depth
      | some (.break _) => []
      | some (.ifOp target) =>
        match elseBefore ops target with
        | some endif =>
          let thenResult := (analyzeYieldCoverageAt ops always fuel (ip + 1) (target - 1)
            hasYielded [] (depth + 1)).1
          let elseResult := (analyzeYieldCoverageAt ops always fuel target endif hasYielded []
            (depth + 1)).1
          returnStatesAt ops always fuel (ip + 1) (target - 1) hasYielded (depth + 1) ++
            returnStatesAt ops always fuel target endif hasYielded (depth + 1) ++
            match thenResult, elseResult with
            | some a, some b => returnStatesAt ops always fuel (endif + 1) stop (a && b) depth
            | some a, none => returnStatesAt ops always fuel (endif + 1) stop a depth
            | none, some b => returnStatesAt ops always fuel (endif + 1) stop b depth
            | none, none => []
        | none =>
          let thenResult := (analyzeYieldCoverageAt ops always fuel (ip + 1) target hasYielded []
            (depth + 1)).1
          returnStatesAt ops always fuel (ip + 1) target hasYielded (depth + 1) ++
            returnStatesAt ops always fuel (target + 1) stop
              (thenResult.elim hasYielded (· && hasYielded)) depth
      | some (.loop target) =>
        let loopBreaks := (analyzeYieldCoverageAt ops always fuel (ip + 1) (target - 1) hasYielded
          [] (depth + 1)).2
        returnStatesAt ops always fuel (ip + 1) (target - 1) hasYielded (depth + 1) ++
          if loopBreaks.isEmpty then []
          else returnStatesAt ops always fuel target stop (loopBreaks.all id) depth
      | some op => returnStatesAt ops always fuel (ip + 1) stop (hasYielded || op.yields always) depth

/-- Beyond its limit the walk goes over nothing. -/
theorem returnStatesAt_walks {p : ℕ × Bool} (hp : p ∈ returnStatesAt ops always fuel lo hi h depth) :
    ¬maxRegionDepth < depth := by
  intro hn
  cases fuel with
  | zero => cases hp
  | succ fuel =>
    rw [returnStatesAt, if_pos hn] at hp
    cases hp

/-- The states in which the walk over a whole chunk goes over `Return`s. -/
def returnStates (always : List ℕ) (ops : List Op) : List (ℕ × Bool) :=
  returnStatesAt ops always (ops.length + 1) 0 ops.length false 0

/-- The walk goes over every `Return` but the last instruction after a yield. -/
def EarlyReturnsYield (always : List ℕ) (ops : List Op) : Prop :=
  ∀ p ∈ returnStates always ops, p.1 + 1 < ops.length → p.2 = true

instance : Decidable (EarlyReturnsYield always ops) :=
  inferInstanceAs (Decidable (∀ p ∈ _, _))

/-! ## The states at the breaks -/

/-- The states at the breaks are added behind those that are there. -/
theorem analyzeYieldCoverageAt_append (fuel lo hi : ℕ) (h : Bool) (bs : List Bool) (depth : ℕ) :
    analyzeYieldCoverageAt ops always fuel lo hi h bs depth =
      ((analyzeYieldCoverageAt ops always fuel lo hi h [] depth).1,
        bs ++ (analyzeYieldCoverageAt ops always fuel lo hi h [] depth).2) := by
  induction fuel generalizing lo hi h bs depth with
  | zero => simp [analyzeYieldCoverageAt]
  | succ fuel ih =>
    rw [analyzeYieldCoverageAt, analyzeYieldCoverageAt]
    split
    · simp
    split
    · simp
    cases ops[lo]? with
    | none => simp
    | some op =>
      cases op with
      | «break» => simp [coverageOp]
      | breakIf =>
        dsimp only [coverageOp]
        rw [ih _ _ _ (bs ++ [h]), ih _ _ _ ([] ++ [h])]
        simp
      | loop target =>
        dsimp only [coverageOp]
        split
        · simp
        · exact ih _ _ _ bs _
      | ifOp target =>
        dsimp only [coverageOp]
        cases elseBefore ops target with
        | none =>
          dsimp only
          rw [ih _ _ _ bs]
          dsimp only
          rw [ih _ _ _ (bs ++ _), ih _ _ _ (analyzeYieldCoverageAt ops always fuel (lo + 1) target
            h [] (depth + 1)).2]
          simp
        | some endif =>
          dsimp only
          rw [ih _ _ _ bs]
          dsimp only
          rw [ih target _ _ (bs ++ _), ih target _ _ (analyzeYieldCoverageAt ops always fuel
            (lo + 1) (target - 1) h [] (depth + 1)).2]
          dsimp only
          cases (analyzeYieldCoverageAt ops always fuel (lo + 1) (target - 1) h [] (depth + 1)).1 <;>
            cases (analyzeYieldCoverageAt ops always fuel target endif h [] (depth + 1)).1 <;>
            dsimp only
          · simp
          all_goals
            rw [ih _ _ _ (bs ++ _ ++ _), ih _ _ _ (_ ++ _)]
            simp
      | _ => exact ih _ _ _ bs _

/-! ## The walk over blocks -/

section Walk

variable (hn : ¬maxRegionDepth < depth) (hlt : lo < hi) (hle : hi ≤ ops.length)
include hn hlt hle

theorem analyzeYieldCoverageAt_leaf (hop : ops[lo]? = some op) (hd : op.isDelimiter = false) :
    analyzeYieldCoverageAt ops always (fuel + 1) lo hi h bs depth =
      analyzeYieldCoverageAt ops always fuel (lo + 1) hi (h || op.yields always) bs depth := by
  have hin : ¬min hi ops.length ≤ lo := by omega
  rw [analyzeYieldCoverageAt, if_neg hn, if_neg hin, hop]
  cases op with
  | ifOp | elseOp | endIf | loop | endLoop | «break» | breakIf => cases hd
  | call => rfl
  | _ => simp [coverageOp, Op.yields]

theorem mem_returnStatesAt_leaf (hop : ops[lo]? = some op) (hd : op.isDelimiter = false)
    {p : ℕ × Bool} : p ∈ returnStatesAt ops always (fuel + 1) lo hi h depth ↔
      (op = .return ∧ p = (lo, h)) ∨
        p ∈ returnStatesAt ops always fuel (lo + 1) hi (h || op.yields always) depth := by
  have hin : ¬min hi ops.length ≤ lo := by omega
  rw [returnStatesAt, if_neg hn, if_neg hin, hop]
  cases op with
  | ifOp | elseOp | endIf | loop | endLoop | «break» | breakIf => cases hd
  | «return» => simp [Op.yields]
  | _ => simp

theorem analyzeYieldCoverageAt_break {k : ℕ} (hop : ops[lo]? = some (.break k)) :
    analyzeYieldCoverageAt ops always (fuel + 1) lo hi h [] depth = (none, [h]) := by
  have hin : ¬min hi ops.length ≤ lo := by omega
  rw [analyzeYieldCoverageAt, if_neg hn, if_neg hin, hop]
  rfl

theorem analyzeYieldCoverageAt_breakIf {k : ℕ} (hop : ops[lo]? = some (.breakIf k)) :
    analyzeYieldCoverageAt ops always (fuel + 1) lo hi h [] depth =
      ((analyzeYieldCoverageAt ops always fuel (lo + 1) hi h [] depth).1,
        h :: (analyzeYieldCoverageAt ops always fuel (lo + 1) hi h [] depth).2) := by
  have hin : ¬min hi ops.length ≤ lo := by omega
  rw [analyzeYieldCoverageAt, if_neg hn, if_neg hin, hop]
  exact analyzeYieldCoverageAt_append ..

theorem analyzeYieldCoverageAt_ifThen (hop : ops[lo]? = some (.ifOp m))
    (hnone : elseBefore ops m = none) {r t : Option Bool × List Bool}
    (ht : analyzeYieldCoverageAt ops always fuel (lo + 1) m h [] (depth + 1) = t)
    (hr : analyzeYieldCoverageAt ops always fuel (m + 1) hi (t.1.elim h (· && h)) [] depth = r) :
    analyzeYieldCoverageAt ops always (fuel + 1) lo hi h [] depth = (r.1, t.2 ++ r.2) := by
  have hin : ¬min hi ops.length ≤ lo := by omega
  rw [analyzeYieldCoverageAt, if_neg hn, if_neg hin, hop]
  simp only [coverageOp, hnone, ht]
  rw [analyzeYieldCoverageAt_append, hr]

/-- The state after a branch with an alternative. -/
def joinResults : Option Bool → Option Bool → Option Bool
  | some a, some b => some (a && b)
  | some a, none => some a
  | none, e => e

theorem analyzeYieldCoverageAt_ifElse {m' : ℕ} (hop : ops[lo]? = some (.ifOp (m + 1)))
    (hsome : elseBefore ops (m + 1) = some m') {t e : Option Bool × List Bool}
    (ht : analyzeYieldCoverageAt ops always fuel (lo + 1) m h [] (depth + 1) = t)
    (he : analyzeYieldCoverageAt ops always fuel (m + 1) m' h [] (depth + 1) = e) :
    analyzeYieldCoverageAt ops always (fuel + 1) lo hi h [] depth =
      match joinResults t.1 e.1 with
      | none => (none, t.2 ++ e.2)
      | some b =>
        let r := analyzeYieldCoverageAt ops always fuel (m' + 1) hi b [] depth
        (r.1, t.2 ++ e.2 ++ r.2) := by
  have hin : ¬min hi ops.length ≤ lo := by omega
  rw [analyzeYieldCoverageAt, if_neg hn, if_neg hin, hop]
  simp only [coverageOp, hsome, Nat.add_sub_cancel, ht]
  rw [analyzeYieldCoverageAt_append fuel (m + 1) m' h t.2 (depth + 1), he]
  obtain ⟨t, tbs⟩ := t
  obtain ⟨e, ebs⟩ := e
  cases t <;> cases e <;> first | rfl | exact analyzeYieldCoverageAt_append ..

theorem analyzeYieldCoverageAt_loop (hop : ops[lo]? = some (.loop (m + 1)))
    {t : Option Bool × List Bool}
    (ht : analyzeYieldCoverageAt ops always fuel (lo + 1) m h [] (depth + 1) = t) :
    analyzeYieldCoverageAt ops always (fuel + 1) lo hi h [] depth =
      if t.2.isEmpty then (none, [])
      else analyzeYieldCoverageAt ops always fuel (m + 1) hi (t.2.all id) [] depth := by
  have hin : ¬min hi ops.length ≤ lo := by omega
  rw [analyzeYieldCoverageAt, if_neg hn, if_neg hin, hop]
  dsimp only [coverageOp]
  rw [Nat.add_sub_cancel, ht]

theorem returnStatesAt_breakIf {k : ℕ} (hop : ops[lo]? = some (.breakIf k)) :
    returnStatesAt ops always (fuel + 1) lo hi h depth =
      returnStatesAt ops always fuel (lo + 1) hi h depth := by
  have hin : ¬min hi ops.length ≤ lo := by omega
  rw [returnStatesAt, if_neg hn, if_neg hin, hop]
  dsimp only
  rw [Op.yields, Bool.or_false]
  all_goals
    intros
    contradiction

theorem returnStatesAt_ifThen (hop : ops[lo]? = some (.ifOp m))
    (hnone : elseBefore ops m = none) {t : Option Bool × List Bool}
    (ht : analyzeYieldCoverageAt ops always fuel (lo + 1) m h [] (depth + 1) = t) :
    returnStatesAt ops always (fuel + 1) lo hi h depth =
      returnStatesAt ops always fuel (lo + 1) m h (depth + 1) ++
        returnStatesAt ops always fuel (m + 1) hi (t.1.elim h (· && h)) depth := by
  have hin : ¬min hi ops.length ≤ lo := by omega
  rw [returnStatesAt, if_neg hn, if_neg hin, hop]
  dsimp only
  rw [hnone, ht]

theorem returnStatesAt_ifElse {m' : ℕ} (hop : ops[lo]? = some (.ifOp (m + 1)))
    (hsome : elseBefore ops (m + 1) = some m') {t e : Option Bool × List Bool}
    (ht : analyzeYieldCoverageAt ops always fuel (lo + 1) m h [] (depth + 1) = t)
    (he : analyzeYieldCoverageAt ops always fuel (m + 1) m' h [] (depth + 1) = e) :
    returnStatesAt ops always (fuel + 1) lo hi h depth =
      returnStatesAt ops always fuel (lo + 1) m h (depth + 1) ++
        returnStatesAt ops always fuel (m + 1) m' h (depth + 1) ++
        match joinResults t.1 e.1 with
        | none => []
        | some b => returnStatesAt ops always fuel (m' + 1) hi b depth := by
  have hin : ¬min hi ops.length ≤ lo := by omega
  rw [returnStatesAt, if_neg hn, if_neg hin, hop]
  dsimp only
  rw [hsome]
  dsimp only
  rw [Nat.add_sub_cancel, ht, he]
  obtain ⟨t, tbs⟩ := t
  obtain ⟨e, ebs⟩ := e
  cases t <;> cases e <;> rfl

theorem returnStatesAt_loop (hop : ops[lo]? = some (.loop (m + 1)))
    {t : Option Bool × List Bool}
    (ht : analyzeYieldCoverageAt ops always fuel (lo + 1) m h [] (depth + 1) = t) :
    returnStatesAt ops always (fuel + 1) lo hi h depth =
      returnStatesAt ops always fuel (lo + 1) m h (depth + 1) ++
        if t.2.isEmpty then []
        else returnStatesAt ops always fuel (m + 1) hi (t.2.all id) depth := by
  have hin : ¬min hi ops.length ≤ lo := by omega
  rw [returnStatesAt, if_neg hn, if_neg hin, hop]
  dsimp only
  rw [Nat.add_sub_cancel, ht]

end Walk

/-! ## What the walk knows -/

/-- The states of a frame that has yielded if `b` says so. -/
def known (b : Bool) : Set Bool := {v | b = true → v = true}

/-- The states that the walk allows at the end of a region. -/
def endStates (e : Option Bool) : Set Bool := {v | ∃ b ∈ e, v ∈ known b}

/-- The states that the walk allows at a break. -/
def breakStates (bs : List Bool) : Set Bool := {v | ∃ b ∈ bs, v ∈ known b}

/-- The effect of an instruction on whether a frame has yielded. -/
def yieldEff (always : List ℕ) (op : Op) (v v' : Bool) : Prop := v' = (v || op.yields always)

/-- A frame executes the `Return`s at certain positions after a yield. -/
def ReturnsYielded (P : ℕ → Prop) (ip : ℕ) (op : Op) (v : Bool) : Prop :=
  op = .return → P ip → v = true

theorem breakStates_mono {bs bs' : List Bool} (h : bs ⊆ bs') : breakStates bs ⊆ breakStates bs' :=
  fun _ ⟨b, hb, hv⟩ => ⟨b, h hb, hv⟩

/-- An instruction that does not yield keeps what is known. -/
theorem keeps_triple {good : Op → Bool → Prop} {P Q : Set Bool} (hy : op.yields always = false)
    (hg : ∀ v, good op v) (hPQ : P ⊆ Q) : OpTriple (yieldEff always) good op P Q := by
  intro v hv
  refine ⟨hg v, ?_⟩
  rintro v' rfl
  rw [hy, Bool.or_false]
  exact hPQ hv

/-- The state behind a branch without an alternative. -/
theorem endStates_ifThen (e : Option Bool) :
    endStates e ∪ known h ⊆ known (e.elim h (· && h)) := by
  rintro v (⟨b, rfl, hv⟩ | hv) <;> intro hb
  · exact hv (Bool.and_eq_true_iff.mp hb).1
  · cases e with
    | none => exact hv hb
    | some b => exact hv (Bool.and_eq_true_iff.mp hb).2

/-- The state behind a branch with an alternative. -/
theorem endStates_ifElse (e e' : Option Bool) :
    endStates e ∪ endStates e' ⊆ endStates (joinResults e e') := by
  rintro v (⟨b, rfl, hv⟩ | ⟨b, rfl, hv⟩)
  · cases e' with
    | none => exact ⟨b, rfl, hv⟩
    | some b' => exact ⟨b && b', rfl, fun hb => hv (Bool.and_eq_true_iff.mp hb).1⟩
  · cases e with
    | none => exact ⟨b, rfl, hv⟩
    | some b' => exact ⟨b' && b, rfl, fun hb => hv (Bool.and_eq_true_iff.mp hb).2⟩

/-- The state behind a loop. -/
theorem breakStates_loop (bs : List Bool) : breakStates bs ⊆ known (bs.all id) :=
  fun _ ⟨b, hb, hv⟩ hall => hv (List.all_eq_true.mp hall b hb)

/-- **What the walk reports.** Control leaves a region in the states that the walk reports, and
executes a `Return` in those in which the walk goes over it. What was known before is known behind
the region (`k`). -/
theorem Region.reports {good : ℕ → Op → Bool → Prop} (hr : Region Eq ops x lo hi)
    (hle : hi ≤ ops.length) (hfuel : hi - lo < fuel) (k : Bool) {dfuel : ℕ} {d : Int}
    {dbs : List Int} {e : Option Int} {ds : List Int}
    (hdepth : verifyDepthRegionAt ops dfuel lo hi d dbs depth = .ok (e, ds))
    (hdelim : ∀ i op v, op.isDelimiter = true → good i op v)
    (hleaf : ∀ i < hi, ∀ op v, ops[i]? = some op → op.isDelimiter = false → op ≠ .return →
      good i op v)
    (hret : ∀ p ∈ returnStatesAt ops always fuel lo hi h depth, ∀ v ∈ known p.2,
      good p.1 .return v) :
    RegionTriple ops (yieldEff always) good x lo hi (known h ∩ known k)
      (endStates (analyzeYieldCoverageAt ops always fuel lo hi h [] depth).1 ∩ known k ∩
        Keleusma.falls e)
      (breakStates (analyzeYieldCoverageAt ops always fuel lo hi h [] depth).2 ∩ known k) := by
  induction hr generalizing fuel h depth k dfuel d dbs e ds with
  | @nil x lo =>
    obtain ⟨fuel, rfl⟩ : ∃ n, fuel = n + 1 := ⟨fuel - 1, by omega⟩
    rw [analyzeYieldCoverageAt_nil (verifyDepthRegionAt_nest hdepth)]
    refine .nil fun v hv => ⟨⟨⟨h, rfl, hv.1⟩, hv.2⟩, ?_⟩
    cases dfuel with
    | zero => cases hdepth
    | succ dfuel =>
      rw [verifyDepthRegionAt] at hdepth
      split at hdepth
      · cases hdepth
      rw [if_pos (Nat.min_le_left _ _)] at hdepth
      cases hdepth
      rfl
  | @leaf x lo hi op hop hd rest ih =>
    have hlt : lo < hi := rest.le
    obtain ⟨fuel, rfl⟩ : ∃ n, fuel = n + 1 := ⟨fuel - 1, by omega⟩
    have hn := verifyDepthRegionAt_nest hdepth
    rw [analyzeYieldCoverageAt_leaf hn hlt hle hop hd]
    have hmem (p : ℕ × Bool) :
        p ∈ returnStatesAt ops always (fuel + 1) lo hi h depth ↔
          (op = .return ∧ p = (lo, h)) ∨
            p ∈ returnStatesAt ops always fuel (lo + 1) hi (h || op.yields always) depth :=
      mem_returnStatesAt_leaf hn hlt hle hop hd
    have hop' : OpTriple (yieldEff always) (good lo) op (known h ∩ known k)
        (known (h || op.yields always) ∩ known k) := by
      intro v hv
      constructor
      · by_cases hreturn : op = .return
        · subst hreturn
          exact hret _ ((hmem _).mpr (.inl ⟨rfl, rfl⟩)) v hv.1
        · exact hleaf lo hlt op v hop hd hreturn
      · rintro v' rfl
        refine ⟨fun hor => ?_, fun hk => ?_⟩
        · rw [Bool.or_eq_true] at hor ⊢
          exact hor.imp_left hv.1
        · rw [hv.2 hk, Bool.true_or]
    rcases verifyDepthRegionAt_leaf hlt hop hd hdepth with hnext | ⟨dfuel', d', hrest⟩
    · exact .halt hop hnext hop'
    · exact .leaf hop (fun _ => next_leaf hd) hop'
        (ih hle (by omega) k hrest hleaf fun p hp => hret p ((hmem _).mpr (.inr hp)))
  | @«break» k lo hi hop rest ih =>
    have hlt : lo < hi := rest.le
    obtain ⟨fuel, rfl⟩ : ∃ n, fuel = n + 1 := ⟨fuel - 1, by omega⟩
    rw [analyzeYieldCoverageAt_break (verifyDepthRegionAt_nest hdepth) hlt hle hop]
    exact .break hop (keeps_triple rfl (hdelim _ _ · rfl) fun v hv =>
      ⟨⟨h, List.mem_singleton_self h, hv.1⟩, hv.2⟩)
  | @breakIf k lo hi hop rest ih =>
    have hlt : lo < hi := rest.le
    obtain ⟨fuel, rfl⟩ : ∃ n, fuel = n + 1 := ⟨fuel - 1, by omega⟩
    have hn := verifyDepthRegionAt_nest hdepth
    rw [returnStatesAt_breakIf hn hlt hle hop] at hret
    rw [analyzeYieldCoverageAt_breakIf hn hlt hle hop]
    obtain ⟨dfuel', d', dbs', hrest⟩ := verifyDepthRegionAt_breakIf hlt hop hdepth
    refine .breakIf hop (keeps_triple rfl (hdelim _ _ · rfl) (Set.Subset.refl _))
      (fun v hv => ⟨⟨h, List.mem_cons_self, hv.1⟩, hv.2⟩) ?_
    exact (ih hle (by omega) _ hrest hleaf hret).mono (Set.Subset.refl _) (Set.Subset.refl _)
      (Set.inter_subset_inter_left _ (breakStates_mono (List.subset_cons_self _ _)))
  | @ifThen x lo m hi hif body hend rest ihb ihr =>
    have hbody := body.le
    have hrest := rest.le
    have hlt : lo < hi := by omega
    obtain ⟨fuel, rfl⟩ : ∃ n, fuel = n + 1 := ⟨fuel - 1, by omega⟩
    have hn := verifyDepthRegionAt_nest hdepth
    have hnone := body.elseBefore_none hif
    obtain ⟨dfuel', d', e₁, bs₁, d'', hdbody, hdrest⟩ :=
      verifyDepthRegionAt_ifThen hlt hif hnone hdepth
    rw [returnStatesAt_ifThen hn hlt hle hif hnone rfl, List.forall_mem_append] at hret
    rw [analyzeYieldCoverageAt_ifThen hn hlt hle hif hnone rfl rfl]
    refine .ifThen hif (keeps_triple rfl (hdelim _ _ · rfl) (Set.Subset.refl _))
      ((ihb (by omega) (by omega) k hdbody (fun i hi => hleaf i (by omega)) hret.1).mono (Set.Subset.refl _) (Set.Subset.refl _)
        (Set.inter_subset_inter_left _ (breakStates_mono (List.subset_append_left _ _)))) hend
      (keeps_triple rfl (hdelim _ _ · rfl) ?_)
      ((ihr hle (by omega) k hdrest hleaf hret.2).mono (Set.Subset.refl _) (Set.Subset.refl _)
        (Set.inter_subset_inter_left _ (breakStates_mono (List.subset_append_right _ _))))
    rintro v (hv | hv)
    · exact ⟨endStates_ifThen _ (.inl hv.1.1), hv.1.2⟩
    · exact ⟨endStates_ifThen _ (.inr hv.1), hv.2⟩
  | @ifElse x lo m t m' hi hif thenBody helse hown elseBody hend rest iht ihe ihr =>
    obtain rfl : t = m' := hown
    have hthen := thenBody.le
    have helse' := elseBody.le
    have hrest := rest.le
    have hlt : lo < hi := by omega
    obtain ⟨fuel, rfl⟩ : ∃ n, fuel = n + 1 := ⟨fuel - 1, by omega⟩
    have hn := verifyDepthRegionAt_nest hdepth
    have hsome := elseBefore_some helse
    obtain ⟨dfuel', d', e₁, bs₁, e₂, bs₂, hdthen, hdelse, hdjoin⟩ :=
      verifyDepthRegionAt_ifElse hlt hif hsome hdepth
    rw [returnStatesAt_ifElse hn hlt hle hif hsome rfl rfl, List.forall_mem_append,
      List.forall_mem_append] at hret
    rw [analyzeYieldCoverageAt_ifElse hn hlt hle hif hsome rfl rfl]
    obtain ⟨⟨hretThen, hretElse⟩, hretRest⟩ := hret
    have ht := iht (by omega) (by omega) k hdthen (fun i hi => hleaf i (by omega)) hretThen
    have he := ihe (by omega) (by omega) k hdelse (fun i hi => hleaf i (by omega)) hretElse
    set thenEnd := analyzeYieldCoverageAt ops always fuel (lo + 1) m h [] (depth + 1)
    set elseEnd := analyzeYieldCoverageAt ops always fuel (m + 1) t h [] (depth + 1)
    have hthenBreaks (l : List Bool) : breakStates thenEnd.2 ∩ known k ⊆
        breakStates (thenEnd.2 ++ elseEnd.2 ++ l) ∩ known k :=
      Set.inter_subset_inter_left _ (breakStates_mono fun b hb =>
        List.mem_append_left _ (List.mem_append_left _ hb))
    have helseBreaks (l : List Bool) : breakStates elseEnd.2 ∩ known k ⊆
        breakStates (thenEnd.2 ++ elseEnd.2 ++ l) ∩ known k :=
      Set.inter_subset_inter_left _ (breakStates_mono fun b hb =>
        List.mem_append_left _ (List.mem_append_right _ hb))
    have hends : endStates thenEnd.1 ∩ known k ∩ Keleusma.falls e₁ ∪
        endStates elseEnd.1 ∩ known k ∩ Keleusma.falls e₂ ⊆
          endStates (joinResults thenEnd.1 elseEnd.1) ∩ known k := by
      rintro v (hv | hv)
      · exact ⟨endStates_ifElse _ _ (.inl hv.1.1), hv.1.2⟩
      · exact ⟨endStates_ifElse _ _ (.inr hv.1.1), hv.1.2⟩
    cases hjoin : joinResults thenEnd.1 elseEnd.1 with
    | none =>
      -- no path falls through the branch
      rw [hjoin] at hends
      have hnobody : endStates (none : Option Bool) ∩ known k ⊆ ∅ := by
        rintro v ⟨⟨b, hb, -⟩, -⟩
        cases hb
      have hb := hthenBreaks []
      have hb' := helseBreaks []
      rw [List.append_nil] at hb hb'
      exact .ifElse hif (keeps_triple rfl (hdelim _ _ · rfl) (Set.Subset.refl _))
        (ht.mono (Set.Subset.refl _) (Set.Subset.refl _) hb) helse
        (keeps_triple rfl (hdelim _ _ · rfl) (Set.Subset.refl _))
        (he.mono (Set.Subset.refl _) (Set.Subset.refl _) hb') hend
        (keeps_triple rfl (hdelim _ _ · rfl) (hends.trans hnobody)) .empty
    | some b =>
      rw [hjoin] at hends hretRest
      have hknown : endStates (some b) ∩ known k ⊆ known b ∩ known k := by
        rintro v ⟨⟨b', hb', hv⟩, hk⟩
        cases hb'
        exact ⟨hv, hk⟩
      have hthen' := ht.mono (Set.Subset.refl _) (Set.Subset.refl _)
        (hthenBreaks (analyzeYieldCoverageAt ops always fuel (t + 1) hi b [] depth).2)
      have helse'' := he.mono (Set.Subset.refl _) (Set.Subset.refl _)
        (helseBreaks (analyzeYieldCoverageAt ops always fuel (t + 1) hi b [] depth).2)
      rcases hdjoin with ⟨rfl, rfl⟩ | ⟨d'', hdrest⟩
      · have hstuck : endStates thenEnd.1 ∩ known k ∩ Keleusma.falls none ∪
            endStates elseEnd.1 ∩ known k ∩ Keleusma.falls none ⊆ ∅ := by
          rintro v (hv | hv) <;> cases hv.2
        exact .ifElse hif (keeps_triple rfl (hdelim _ _ · rfl) (Set.Subset.refl _)) hthen' helse
          (keeps_triple rfl (hdelim _ _ · rfl) (Set.Subset.refl _)) helse'' hend
          (keeps_triple rfl (hdelim _ _ · rfl) hstuck) .empty
      · exact .ifElse hif (keeps_triple rfl (hdelim _ _ · rfl) (Set.Subset.refl _)) hthen' helse
          (keeps_triple rfl (hdelim _ _ · rfl) (Set.Subset.refl _)) helse'' hend
          (keeps_triple rfl (hdelim _ _ · rfl) (hends.trans hknown))
          ((ihr hle (by omega) k hdrest hleaf hretRest).mono (Set.Subset.refl _) (Set.Subset.refl _)
            (Set.inter_subset_inter_left _ (breakStates_mono (List.subset_append_right _ _))))
  | @loop x lo m hi hloop body hend rest ihb ihr =>
    have hbody := body.le
    have hrest := rest.le
    have hlt : lo < hi := by omega
    obtain ⟨fuel, rfl⟩ : ∃ n, fuel = n + 1 := ⟨fuel - 1, by omega⟩
    have hn := verifyDepthRegionAt_nest hdepth
    obtain ⟨dfuel', d', e₁, bs₁, hdbody, hdrest⟩ := verifyDepthRegionAt_loop hlt hloop hdepth
    rw [returnStatesAt_loop hn hlt hle hloop rfl, List.forall_mem_append] at hret
    rw [analyzeYieldCoverageAt_loop hn hlt hle hloop rfl]
    obtain ⟨hretBody, hretRest⟩ := hret
    -- the head of the loop knows all that was known before it
    have hb := ihb (by omega) (by omega) (h || k) hdbody (fun i hi => hleaf i (by omega)) hretBody
    set bodyEnd := analyzeYieldCoverageAt ops always fuel (lo + 1) m h [] (depth + 1)
    have hhead : known h ∩ known k ⊆ known h ∩ known (h || k) := fun v hv =>
      ⟨hv.1, fun hor => (Bool.or_eq_true_iff.mp hor).elim hv.1 hv.2⟩
    have hback : endStates bodyEnd.1 ∩ known (h || k) ∩ Keleusma.falls e₁ ⊆
        known h ∩ known (h || k) := fun v hv =>
      ⟨fun hh => hv.1.2 (Bool.or_eq_true_iff.mpr (.inl hh)), hv.1.2⟩
    have hbreaks : breakStates bodyEnd.2 ∩ known (h || k) ⊆ breakStates bodyEnd.2 ∩ known k :=
      fun v hv => ⟨hv.1, fun hk => hv.2 (Bool.or_eq_true_iff.mpr (.inr hk))⟩
    have hloopBody := hb.mono (Set.Subset.refl _) (Set.Subset.refl _) hbreaks
    split
    next hempty =>
      -- no path leaves the loop
      have hnone : breakStates bodyEnd.2 ∩ known k ⊆ ∅ := by
        rintro v ⟨⟨b, hb, -⟩, -⟩
        rw [List.isEmpty_iff.mp hempty] at hb
        cases hb
      exact .loop hloop (keeps_triple rfl (hdelim _ _ · rfl) hhead)
        (hloopBody.mono (Set.Subset.refl _) (Set.Subset.refl _) hnone) hend
        (keeps_triple rfl (hdelim _ _ · rfl) hback) .empty
    next hsome =>
      rw [if_neg hsome] at hretRest
      exact .loop hloop (keeps_triple rfl (hdelim _ _ · rfl) hhead)
        (hloopBody.mono (Set.Subset.refl _) (Set.Subset.refl _)
          (Set.inter_subset_inter_left _ (breakStates_loop _))) hend
        (keeps_triple rfl (hdelim _ _ · rfl) hback) (ihr hle (by omega) k hdrest hleaf hretRest)

/-- When the walk goes over certain `Return`s after a yield, control reaches none of them before a
yield. -/
theorem Region.covers {P : ℕ → Prop} (hr : Region Eq ops x lo hi) (hle : hi ≤ ops.length)
    (hfuel : hi - lo < fuel) (k : Bool) {dfuel : ℕ} {d : Int} {dbs : List Int} {e : Option Int} {ds : List Int}
    (hdepth : verifyDepthRegionAt ops dfuel lo hi d dbs depth = .ok (e, ds))
    (hret : ∀ p ∈ returnStatesAt ops always fuel lo hi h depth, P p.1 → p.2 = true) :
    RegionTriple ops (yieldEff always) (ReturnsYielded P) x lo hi (known h ∩ known k)
      (endStates (analyzeYieldCoverageAt ops always fuel lo hi h [] depth).1 ∩ known k ∩
        Keleusma.falls e)
      (breakStates (analyzeYieldCoverageAt ops always fuel lo hi h [] depth).2 ∩ known k) :=
  hr.reports hle hfuel k hdepth (by rintro i op v hd rfl; cases hd)
    (fun _ _ _ _ _ _ hne hreturn => absurd hreturn hne) fun p hp _ hv _ hpos => hv (hret p hp hpos)

/-! ## The last instruction -/

/-- The walk goes over the `Return`s of its region, and ends in the state in which it goes over a
`Return` at the end. -/
theorem Region.returnStates (hr : Region Eq ops x lo hi) (hle : hi ≤ ops.length)
    (hfuel : hi - lo < fuel) {p : ℕ × Bool}
    (hp : p ∈ returnStatesAt ops always fuel lo hi h depth) :
    lo ≤ p.1 ∧ p.1 < hi ∧
      (p.1 + 1 = hi → (analyzeYieldCoverageAt ops always fuel lo hi h [] depth).1 = some p.2) := by
  have hn := returnStatesAt_walks hp
  induction hr generalizing fuel h depth with
  | @nil x lo =>
    obtain ⟨fuel, rfl⟩ : ∃ n, fuel = n + 1 := ⟨fuel - 1, by omega⟩
    rw [returnStatesAt, if_neg hn, if_pos (Nat.min_le_left _ _)] at hp
    cases hp
  | @leaf x lo hi op hop hd rest ih =>
    have hlt : lo < hi := rest.le
    obtain ⟨fuel, rfl⟩ : ∃ n, fuel = n + 1 := ⟨fuel - 1, by omega⟩
    rw [analyzeYieldCoverageAt_leaf hn hlt hle hop hd]
    rcases (mem_returnStatesAt_leaf hn hlt hle hop hd).mp hp with ⟨rfl, rfl⟩ | hp
    · refine ⟨le_rfl, hlt, fun hlast => ?_⟩
      obtain rfl : lo + 1 = hi := hlast
      obtain ⟨fuel, rfl⟩ : ∃ n, fuel = n + 1 := ⟨fuel - 1, by omega⟩
      rw [analyzeYieldCoverageAt_nil hn, Op.yields, Bool.or_false]
      all_goals
        intros
        contradiction
    · obtain ⟨hlo, hhi, hlast⟩ := ih hle (by omega) hp hn
      exact ⟨by omega, hhi, hlast⟩
  | @«break» k lo hi hop rest ih =>
    have hlt : lo < hi := rest.le
    obtain ⟨fuel, rfl⟩ : ∃ n, fuel = n + 1 := ⟨fuel - 1, by omega⟩
    rw [returnStatesAt, if_neg hn, if_neg (by omega), hop] at hp
    cases hp
  | @breakIf k lo hi hop rest ih =>
    have hlt : lo < hi := rest.le
    obtain ⟨fuel, rfl⟩ : ∃ n, fuel = n + 1 := ⟨fuel - 1, by omega⟩
    rw [returnStatesAt_breakIf hn hlt hle hop] at hp
    rw [analyzeYieldCoverageAt_breakIf hn hlt hle hop]
    obtain ⟨hlo, hhi, hlast⟩ := ih hle (by omega) hp hn
    exact ⟨by omega, hhi, hlast⟩
  | @ifThen x lo m hi hif body hend rest ihb ihr =>
    have hbody := body.le
    have hrest := rest.le
    have hlt : lo < hi := by omega
    obtain ⟨fuel, rfl⟩ : ∃ n, fuel = n + 1 := ⟨fuel - 1, by omega⟩
    have hnone := body.elseBefore_none hif
    rw [returnStatesAt_ifThen hn hlt hle hif hnone rfl, List.mem_append] at hp
    rw [analyzeYieldCoverageAt_ifThen hn hlt hle hif hnone rfl rfl]
    rcases hp with hp | hp
    · obtain ⟨hlo, hhi, -⟩ := ihb (by omega) (by omega) hp (returnStatesAt_walks hp)
      exact ⟨by omega, by omega, fun hlast => by omega⟩
    · obtain ⟨hlo, hhi, hlast⟩ := ihr hle (by omega) hp hn
      exact ⟨by omega, hhi, hlast⟩
  | @ifElse x lo m t m' hi hif thenBody helse hown elseBody hend rest iht ihe ihr =>
    obtain rfl : t = m' := hown
    have hthen := thenBody.le
    have helse' := elseBody.le
    have hrest := rest.le
    have hlt : lo < hi := by omega
    obtain ⟨fuel, rfl⟩ : ∃ n, fuel = n + 1 := ⟨fuel - 1, by omega⟩
    have hsome := elseBefore_some helse
    rw [returnStatesAt_ifElse hn hlt hle hif hsome rfl rfl, List.mem_append, List.mem_append] at hp
    rw [analyzeYieldCoverageAt_ifElse hn hlt hle hif hsome rfl rfl]
    rcases hp with (hp | hp) | hp
    · obtain ⟨hlo, hhi, -⟩ := iht (by omega) (by omega) hp (returnStatesAt_walks hp)
      exact ⟨by omega, by omega, fun hlast => by omega⟩
    · obtain ⟨hlo, hhi, -⟩ := ihe (by omega) (by omega) hp (returnStatesAt_walks hp)
      exact ⟨by omega, by omega, fun hlast => by omega⟩
    · cases hjoin : joinResults (analyzeYieldCoverageAt ops always fuel (lo + 1) m h []
          (depth + 1)).1 (analyzeYieldCoverageAt ops always fuel (m + 1) t h [] (depth + 1)).1 with
      | none =>
        rw [hjoin] at hp
        cases hp
      | some b =>
        rw [hjoin] at hp
        obtain ⟨hlo, hhi, hlast⟩ := ihr hle (by omega) hp hn
        exact ⟨by omega, hhi, hlast⟩
  | @loop x lo m hi hloop body hend rest ihb ihr =>
    have hbody := body.le
    have hrest := rest.le
    have hlt : lo < hi := by omega
    obtain ⟨fuel, rfl⟩ : ∃ n, fuel = n + 1 := ⟨fuel - 1, by omega⟩
    rw [returnStatesAt_loop hn hlt hle hloop rfl, List.mem_append] at hp
    rw [analyzeYieldCoverageAt_loop hn hlt hle hloop rfl]
    rcases hp with hp | hp
    · obtain ⟨hlo, hhi, -⟩ := ihb (by omega) (by omega) hp (returnStatesAt_walks hp)
      exact ⟨by omega, by omega, fun hlast => by omega⟩
    · split at hp
      · cases hp
      next hsome =>
        rw [if_neg hsome]
        obtain ⟨hlo, hhi, hlast⟩ := ihr hle (by omega) hp hn
        exact ⟨by omega, hhi, hlast⟩

/-! ## More chunks that yield -/

/-- The second result knows at least as much as the first. -/
def ResultLe (r r' : Option Bool × List Bool) : Prop :=
  Option.Rel (fun b b' => b = true → b' = true) r.1 r'.1 ∧
    List.Forall₂ (fun b b' => b = true → b' = true) r.2 r'.2

theorem ResultLe.append {r r' t t' : Option Bool × List Bool} (h : ResultLe r r')
    (ht : ResultLe t t') : ResultLe (r.1, t.2 ++ r.2) (r'.1, t'.2 ++ r'.2) :=
  ⟨h.1, List.rel_append ht.2 h.2⟩

theorem ResultLe.isEmpty {r r' : Option Bool × List Bool} (h : ResultLe r r') :
    r'.2.isEmpty = r.2.isEmpty := by
  rw [Bool.eq_iff_iff, List.isEmpty_iff_length_eq_zero, List.isEmpty_iff_length_eq_zero,
    h.2.length_eq]

theorem ResultLe.ifThen {r r' : Option Bool × List Bool} (hr : ResultLe r r')
    (hh : h = true → h' = true) :
    r.1.elim h (· && h) = true → r'.1.elim h' (· && h') = true := by
  obtain ⟨e, bs⟩ := r
  obtain ⟨e', bs'⟩ := r'
  obtain ⟨he, -⟩ := hr
  cases he with
  | none => exact hh
  | some hb =>
    intro hand
    rw [Option.elim, Bool.and_eq_true] at hand ⊢
    exact ⟨hb hand.1, hh hand.2⟩

theorem all_of_forall₂ {l l' : List Bool} (h : List.Forall₂ (fun b b' => b = true → b' = true) l l')
    (hall : l.all id = true) : l'.all id = true := by
  induction h with
  | nil => rfl
  | cons hb _ ih =>
    rw [List.all_cons, Bool.and_eq_true] at hall ⊢
    exact ⟨hb hall.1, ih hall.2⟩

/-- A walk that counts more chunks, from a state that knows more, knows more. -/
theorem analyzeYieldCoverageAt_mono (hsub : always ⊆ always') (fuel lo hi : ℕ) {h h' : Bool}
    (hh : h = true → h' = true) (depth : ℕ) :
    ResultLe (analyzeYieldCoverageAt ops always fuel lo hi h [] depth)
      (analyzeYieldCoverageAt ops always' fuel lo hi h' [] depth) := by
  induction fuel generalizing lo hi h h' depth with
  | zero => exact ⟨.some id, .nil⟩
  | succ fuel ih =>
    rw [analyzeYieldCoverageAt, analyzeYieldCoverageAt]
    split
    · exact ⟨.some id, .nil⟩
    split
    · exact ⟨.some hh, .nil⟩
    cases ops[lo]? with
    | none => exact ⟨.some hh, .nil⟩
    | some op =>
      cases op with
      | yield => exact ih _ _ id _
      | «break» => exact ⟨.none, .cons hh .nil⟩
      | breakIf =>
        dsimp only [coverageOp]
        rw [analyzeYieldCoverageAt_append, analyzeYieldCoverageAt_append (h := h')]
        have hbreak : ResultLe (none, [h]) (none, [h']) := ⟨.none, .cons hh .nil⟩
        exact (ih (lo + 1) hi hh depth).append hbreak
      | call callee n =>
        refine ih _ _ (fun hor => ?_) _
        rw [Bool.or_eq_true] at hor ⊢
        exact hor.imp hh fun hmem => decide_eq_true (hsub (of_decide_eq_true hmem))
      | loop target =>
        dsimp only [coverageOp]
        have hbody := ih (lo + 1) (target - 1) hh (depth + 1)
        rw [hbody.isEmpty]
        split
        · exact ⟨.none, .nil⟩
        · exact ih _ _ (all_of_forall₂ hbody.2) _
      | ifOp target =>
        dsimp only [coverageOp]
        cases elseBefore ops target with
        | none =>
          dsimp only
          have hbody := ih (lo + 1) target hh (depth + 1)
          have happend (l : List ℕ) (b : Bool) (bs : List Bool) :
              analyzeYieldCoverageAt ops l fuel (target + 1) hi b bs depth =
                ((analyzeYieldCoverageAt ops l fuel (target + 1) hi b [] depth).1,
                  bs ++ (analyzeYieldCoverageAt ops l fuel (target + 1) hi b [] depth).2) :=
            analyzeYieldCoverageAt_append ..
          rw [happend always, happend always']
          exact (ih (target + 1) hi (hbody.ifThen hh) depth).append hbody
        | some endif =>
          dsimp only
          have hthen := ih (lo + 1) (target - 1) hh (depth + 1)
          have helse := ih target endif hh (depth + 1)
          have happend (l : List ℕ) (b : Bool) (bs : List Bool) :
              analyzeYieldCoverageAt ops l fuel target endif b bs (depth + 1) =
                ((analyzeYieldCoverageAt ops l fuel target endif b [] (depth + 1)).1,
                  bs ++ (analyzeYieldCoverageAt ops l fuel target endif b [] (depth + 1)).2) :=
            analyzeYieldCoverageAt_append ..
          rw [happend always, happend always']
          dsimp only
          generalize analyzeYieldCoverageAt ops always fuel (lo + 1) (target - 1) h []
            (depth + 1) = t at hthen ⊢
          generalize analyzeYieldCoverageAt ops always' fuel (lo + 1) (target - 1) h' []
            (depth + 1) = t' at hthen ⊢
          generalize analyzeYieldCoverageAt ops always fuel target endif h [] (depth + 1) = e
            at helse ⊢
          generalize analyzeYieldCoverageAt ops always' fuel target endif h' [] (depth + 1) = e'
            at helse ⊢
          have hbreaks : ResultLe (none, t.2 ++ e.2) (none, t'.2 ++ e'.2) :=
            ⟨.none, List.rel_append hthen.2 helse.2⟩
          have hrest {b b' : Bool} (hb : b = true → b' = true) :
              ResultLe (analyzeYieldCoverageAt ops always fuel (endif + 1) hi b (t.2 ++ e.2) depth)
                (analyzeYieldCoverageAt ops always' fuel (endif + 1) hi b' (t'.2 ++ e'.2) depth) := by
            rw [analyzeYieldCoverageAt_append, analyzeYieldCoverageAt_append (h := b')]
            exact (ih (endif + 1) hi hb depth).append hbreaks
          obtain ⟨t, tbs⟩ := t
          obtain ⟨t', tbs'⟩ := t'
          obtain ⟨e, ebs⟩ := e
          obtain ⟨e', ebs'⟩ := e'
          obtain ⟨ht, -⟩ := hthen
          obtain ⟨he, -⟩ := helse
          cases ht with
          | none =>
            cases he with
            | none => exact hbreaks
            | some hb => exact hrest hb
          | some ha =>
            cases he with
            | none => exact hrest ha
            | some hb =>
              refine hrest fun hand => ?_
              rw [Bool.and_eq_true] at hand ⊢
              exact ⟨ha hand.1, hb hand.2⟩
      | _ => exact ih _ _ hh _

/-- The walk accepts every chunk of the list, counting the calls of all of them. -/
def Justified (chunks : List Chunk) (always : List ℕ) : Prop :=
  ∀ i ∈ always, ∃ c, chunks[i]? = some c ∧ coversWholeChunk always c = true

theorem coversWholeChunk_mono {c : Chunk} (hsub : always ⊆ always')
    (h : coversWholeChunk always c = true) : coversWholeChunk always' c = true := by
  have hle : Option.Rel (fun b b' => b = true → b' = true)
      (analyzeYieldCoverageAt c.ops always (c.ops.length + 1) 0 c.ops.length false [] 0).1
      (analyzeYieldCoverageAt c.ops always' (c.ops.length + 1) 0 c.ops.length false [] 0).1 :=
    (analyzeYieldCoverageAt_mono hsub _ _ _ id 0).1
  rw [coversWholeChunk, beq_iff_eq, analyzeYieldCoverage] at h ⊢
  rw [h] at hle
  cases hle' : (analyzeYieldCoverageAt c.ops always' (c.ops.length + 1) 0 c.ops.length false [] 0).1
    with
  | none =>
    rw [hle'] at hle
    cases hle
  | some b =>
    rw [hle'] at hle
    cases hle with
    | some hb => rw [hb rfl]

theorem Justified.round {chunks rest : List Chunk} {i : ℕ} (hrest : chunks.drop i = rest)
    (h : Justified chunks always) : Justified chunks (alwaysYieldingRound i rest always) := by
  induction rest generalizing i always with
  | nil => exact h
  | cons c rest ih =>
    rw [alwaysYieldingRound]
    have hc : chunks[i]? = some c := by
      have hhead := congrArg (·[0]?) hrest
      rwa [List.getElem?_drop] at hhead
    apply ih
    · rw [← List.drop_drop, hrest]
      rfl
    · split_ifs with hmem hcov
      · exact h
      · intro j hj
        have hsub := List.subset_cons_self i always
        rcases List.mem_cons.mp hj with rfl | hj
        · exact ⟨c, hc, coversWholeChunk_mono hsub hcov⟩
        · obtain ⟨c', hc', hcov'⟩ := h j hj
          exact ⟨c', hc', coversWholeChunk_mono hsub hcov'⟩
      · exact h

theorem Justified.fix {chunks : List Chunk} (fuel : ℕ) (h : Justified chunks always) :
    Justified chunks (alwaysYieldingFix chunks fuel always) := by
  induction fuel generalizing always with
  | zero => exact h
  | succ fuel ih =>
    rw [alwaysYieldingFix]
    split
    · exact h
    · exact ih (h.round rfl)

/-- **The chunks that are found to yield on every path** are accepted by the walk. -/
theorem computeAlwaysYielding_justified (m : Module) :
    Justified m.chunks (computeAlwaysYielding m) :=
  Justified.fix _ fun _ h => absurd h List.not_mem_nil

/-! ## Accepted chunks -/

/-- **In an accepted chunk that the walk accepts, control reaches certain `Return`s after a yield**,
as long as the walk goes over the early ones among them after one; and control is always at an
instruction. -/
theorem ChunkAccepted.covers {md : Module} {c : Chunk} {P : ℕ → Prop} (hacc : ChunkAccepted md c)
    (hm : ElseMatched c.ops) (hcov : coversWholeChunk always c = true)
    (hearly : ∀ p ∈ returnStates always c.ops, p.1 + 1 < c.ops.length → P p.1 → p.2 = true)
    {ip : ℕ} {v : Bool} (hr : FlowReaches c.ops (yieldEff always) false ip v) :
    ∃ op, c.ops[ip]? = some op ∧ (op = .return → P ip → v = true) := by
  have hnested := hacc.wellNested hm
  obtain ⟨⟨e, ds⟩, hdepth, hend⟩ := bind_eq_ok hacc.depth
  have hret : ∀ p ∈ returnStates always c.ops, P p.1 → p.2 = true := by
    intro p hp hpos
    obtain ⟨-, hlt, hlast⟩ := Region.returnStates hnested le_rfl (by omega) hp
    by_cases hp' : p.1 + 1 < c.ops.length
    · exact hearly p hp hp' hpos
    · have hstate := hlast (by omega)
      rw [coversWholeChunk, beq_iff_eq, analyzeYieldCoverage, hstate] at hcov
      exact Option.some.inj hcov
  have hcovers := Region.covers hnested le_rfl (show _ < c.ops.length + 1 by omega) false hdepth hret
  rcases hcovers.reaches ⟨nofun, nofun⟩ hr with hgood | ⟨-, hfalls⟩
  · exact hgood
  · cases e with
    | none => cases hfalls.2
    | some d => cases hend

end Keleusma
