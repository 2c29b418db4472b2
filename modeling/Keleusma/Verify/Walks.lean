import Keleusma.Logic.Outcomes
import Keleusma.Logic.Unfolding
import Keleusma.Verify.Accepted
import Keleusma.Verify.WorstMemory

/-!
# The walks over regions end

The walks of the verifier go on at positions that they take from the operands of `If`, `Else` and
`Loop`. Where these lie ahead a walk asks of itself only about what begins further on, so that it
ends whatever the shape of the chunk, also where targets overlap and blocks are not closed.

A turn of a walk is written here with a free answer for a read outside the instructions, as is the
answer that the unfolding starts from. What the walks find depends on neither.
-/

namespace Keleusma

open Saturating (u32Max)

variable {chunk : Chunk} {ip target endif stop nest : ℕ} {op : Op} {cm : CostModel} {clamp : Bool}
  {extra : List ℕ} {r : CallResolver} {valueSlotBytes : ℕ} {always : List ℕ}

/-! ## Targets -/

section Targets

variable (hfwd : checkForwardControlFlowTargets chunk = .ok ())
include hfwd

theorem forwardTarget_at (hop : chunk.ops[ip]? = some op) :
    forwardTarget chunk.ops.length ip op = .ok () := by
  simpa using forEachOp_eq_ok hfwd hop

theorem ifOp_forward (hop : chunk.ops[ip]? = some (.ifOp target)) :
    ip < target ∧ target ≤ chunk.ops.length := by
  have h := forwardTarget_at hfwd hop
  rw [forwardTarget] at h
  split at h
  · cases h
  · omega

theorem elseOp_forward (hop : chunk.ops[ip]? = some (.elseOp target)) :
    ip < target ∧ target ≤ chunk.ops.length := by
  have h := forwardTarget_at hfwd hop
  rw [forwardTarget] at h
  split at h
  · cases h
  · omega

theorem loop_forward (hop : chunk.ops[ip]? = some (.loop target)) :
    ip < target ∧ target ≤ chunk.ops.length := by
  have h := forwardTarget_at hfwd hop
  rw [forwardTarget] at h
  split at h
  · cases h
  · omega

/-- The alternative of an `If` begins behind its `Else`, which is itself in the chunk. -/
theorem elseBefore_forward (he : elseBefore chunk.ops target = some endif) :
    target ≤ endif ∧ target - 1 < chunk.ops.length := by
  unfold elseBefore at he
  split at he
  · split at he
    · next hop =>
      cases he
      have := elseOp_forward hfwd hop
      omega
    · cases he
  · cases he

end Targets

/-- Where there is more of a region, there is an instruction. -/
theorem getElem?_of_walk (hend : ¬min stop chunk.ops.length ≤ ip) :
    ∃ op, chunk.ops[ip]? = some op ∧ ip < chunk.ops.length := by
  have hlt : ip < chunk.ops.length := by omega
  exact ⟨_, List.getElem?_eq_getElem hlt, hlt⟩

/-! ## The turns -/

/-- A turn of the walk that finds the cost. -/
def wcetTurn (outside : WcetWalk) (chunk : Chunk) (cm : CostModel) (clamp : Bool) (extra : List ℕ)
    (walk : WcetWalk) : WcetWalk :=
  fun ip stop cost breakCosts nest =>
    if maxRegionDepth < nest then .error .nestedTooDeep
    else if min stop chunk.ops.length ≤ ip then .ok (⟨cost, true⟩, breakCosts)
    else
      match chunk.ops[ip]? with
      | none => outside ip stop cost breakCosts nest
      | some op => do
        let here ← opWcetCycles chunk cm extra ip
        wcetOp chunk cm clamp extra walk ip stop (Saturating.add u32Max cost here) breakCosts nest op

/-- A turn of the walk that finds the memory. -/
def wcmuTurn (outside : McuWalk) (chunk : Chunk) (r : CallResolver) (valueSlotBytes : ℕ)
    (walk : McuWalk) : McuWalk :=
  fun ip stop s breaks nest =>
    if maxRegionDepth < nest then .error .nestedTooDeep
    else if min stop chunk.ops.length ≤ ip then .ok (⟨s.peak, s.heap, some s.offset⟩, breaks)
    else
      match chunk.ops[ip]? with
      | none => outside ip stop s breaks nest
      | some op => wcmuOp chunk r valueSlotBytes walk ip stop s breaks nest op

/-- A turn of the walk that finds the yields. -/
def coverageTurn (outside : CoverageWalk) (ops : List Op) (always : List ℕ) (walk : CoverageWalk) :
    CoverageWalk :=
  fun ip stop hasYielded breakStates depth =>
    if maxRegionDepth < depth then (some false, breakStates)
    else if min stop ops.length ≤ ip then (some hasYielded, breakStates)
    else
      match ops[ip]? with
      | none => outside ip stop hasYielded breakStates depth
      | some op => coverageOp ops always walk ip stop hasYielded breakStates depth op

/-- The walk that panics. -/
def panickedWcet : WcetWalk := fun _ _ _ _ _ => .error .panicked

/-- The walk that panics. -/
def panickedWcmu : McuWalk := fun _ _ _ _ _ => .error .panicked

/-- The walk that goes over nothing. -/
def passedCoverage : CoverageWalk := fun _ _ hasYielded breakStates _ => (some hasYielded, breakStates)

theorem wcetRegionAt_eq_iterate (fuel : ℕ) : wcetRegionAt chunk cm clamp extra fuel =
    (wcetTurn panickedWcet chunk cm clamp extra)^[fuel] panickedWcet := by
  induction fuel with
  | zero => rfl
  | succ fuel ih =>
    rw [Function.iterate_succ_apply', ← ih]
    rfl

theorem wcmuRegionAt_eq_iterate (fuel : ℕ) : wcmuRegionAt chunk r valueSlotBytes fuel =
    (wcmuTurn panickedWcmu chunk r valueSlotBytes)^[fuel] panickedWcmu := by
  induction fuel with
  | zero => rfl
  | succ fuel ih =>
    rw [Function.iterate_succ_apply', ← ih]
    rfl

theorem analyzeYieldCoverageAt_eq_iterate (fuel : ℕ) :
    analyzeYieldCoverageAt chunk.ops always fuel =
      (coverageTurn passedCoverage chunk.ops always)^[fuel]
        (fun _ _ _ breakStates _ => (some false, breakStates)) := by
  induction fuel with
  | zero => rfl
  | succ fuel ih =>
    rw [Function.iterate_succ_apply', ← ih]
    rfl

/-- The walk that finds the cost raises no such error itself. -/
def CostFault.Foreign : CostFault → Prop
  | .nestedTooDeep | .unboundedText _ | .unboundedLoop _ => False
  | _ => True

/-! ## Reads stay inside -/

/-- The turn does not read outside the instructions. -/
theorem wcetTurn_outside (outside outside' : WcetWalk) :
    wcetTurn outside chunk cm clamp extra = wcetTurn outside' chunk cm clamp extra := by
  funext walk ip stop cost breakCosts nest
  unfold wcetTurn
  split_ifs with _ hend
  · rfl
  · rfl
  · obtain ⟨op, hop, -⟩ := getElem?_of_walk hend
    rw [hop]

/-- The turn does not read outside the instructions. -/
theorem wcmuTurn_outside (outside outside' : McuWalk) :
    wcmuTurn outside chunk r valueSlotBytes = wcmuTurn outside' chunk r valueSlotBytes := by
  funext walk ip stop s breaks nest
  unfold wcmuTurn
  split_ifs with _ hend
  · rfl
  · rfl
  · obtain ⟨op, hop, -⟩ := getElem?_of_walk hend
    rw [hop]

/-- The turn does not read outside the instructions. -/
theorem coverageTurn_outside (outside outside' : CoverageWalk) :
    coverageTurn outside chunk.ops always = coverageTurn outside' chunk.ops always := by
  funext walk ip stop hasYielded breakStates depth
  unfold coverageTurn
  split_ifs with _ hend
  · rfl
  · rfl
  · obtain ⟨op, hop, -⟩ := getElem?_of_walk hend
    rw [hop]

/-! ## Walks go forward -/

section Forward

variable (hfwd : checkForwardControlFlowTargets chunk = .ok ())
include hfwd

/-- An instruction is priced from what the walk finds further on. -/
theorem wcetOp_congr (hop : chunk.ops[ip]? = some op) {walk walk' : WcetWalk}
    (hw : ∀ start, ip < start → walk start = walk' start) {cost : ℕ} {breakCosts : List ℕ} :
    wcetOp chunk cm clamp extra walk ip stop cost breakCosts nest op =
      wcetOp chunk cm clamp extra walk' ip stop cost breakCosts nest op := by
  have hnext := hw (ip + 1) (Nat.lt_succ_self ip)
  cases op with
  | ifOp target =>
    obtain ⟨hlt, -⟩ := ifOp_forward hfwd hop
    simp only [wcetOp]
    cases he : elseBefore chunk.ops target with
    | none =>
      have hafter := hw (target + 1) (by omega)
      simp only [hnext, hafter]
    | some endif =>
      have hle := (elseBefore_forward hfwd he).1
      have helse := hw target hlt
      have hafter := hw (endif + 1) (by omega)
      simp only [hnext, helse, hafter]
  | loop target =>
    have hafter := hw target (loop_forward hfwd hop).1
    simp only [wcetOp, hnext, hafter]
  | _ => simp only [wcetOp, hnext]

/-- What an instruction needs is found from what the walk finds further on. -/
theorem wcmuOp_congr (hop : chunk.ops[ip]? = some op) {walk walk' : McuWalk}
    (hw : ∀ start, ip < start → walk start = walk' start) {s : McuState} {breaks : List McuResult} :
    wcmuOp chunk r valueSlotBytes walk ip stop s breaks nest op =
      wcmuOp chunk r valueSlotBytes walk' ip stop s breaks nest op := by
  have hnext := hw (ip + 1) (Nat.lt_succ_self ip)
  cases op with
  | ifOp target =>
    obtain ⟨hlt, -⟩ := ifOp_forward hfwd hop
    simp only [wcmuOp, wcmuSubregion]
    cases he : elseBefore chunk.ops target with
    | none =>
      have hafter := hw (target + 1) (by omega)
      simp only [hnext, hafter]
    | some endif =>
      have hle := (elseBefore_forward hfwd he).1
      have helse := hw target hlt
      have hafter := hw (endif + 1) (by omega)
      simp only [hnext, helse, hafter]
  | loop target =>
    have hafter := hw target (loop_forward hfwd hop).1
    simp only [wcmuOp, wcmuSubregion, hnext, hafter]
  | _ => simp only [wcmuOp, hnext]

/-- What has yielded behind an instruction is found from what the walk finds further on. -/
theorem coverageOp_congr (hop : chunk.ops[ip]? = some op) {walk walk' : CoverageWalk}
    (hw : ∀ start, ip < start → walk start = walk' start) {h : Bool} {bs : List Bool} {depth : ℕ} :
    coverageOp chunk.ops always walk ip stop h bs depth op =
      coverageOp chunk.ops always walk' ip stop h bs depth op := by
  have hnext := hw (ip + 1) (Nat.lt_succ_self ip)
  cases op with
  | ifOp target =>
    obtain ⟨hlt, -⟩ := ifOp_forward hfwd hop
    simp only [coverageOp]
    cases he : elseBefore chunk.ops target with
    | none =>
      have hafter := hw (target + 1) (by omega)
      simp only [hnext, hafter]
    | some endif =>
      have hle := (elseBefore_forward hfwd he).1
      have helse := hw target hlt
      have hafter := hw (endif + 1) (by omega)
      simp only [hnext, helse, hafter]
  | loop target =>
    have hafter := hw target (loop_forward hfwd hop).1
    simp only [coverageOp, hnext, hafter]
  | _ => simp only [coverageOp, hnext]

theorem wcetTurn_descends (outside : WcetWalk) :
    Descends (chunk.ops.length - ·) (wcetTurn outside chunk cm clamp extra) := by
  intro ip w w' hw
  funext stop cost breakCosts nest
  unfold wcetTurn
  split_ifs with _ hend
  · rfl
  · rfl
  · obtain ⟨op, hop, hlt⟩ := getElem?_of_walk hend
    have hahead : ∀ start, ip < start → w start = w' start := fun start hs =>
      hw start (Nat.sub_lt_sub_left hlt hs)
    simp only [hop, wcetOp_congr hfwd hop hahead]

theorem wcmuTurn_descends (outside : McuWalk) :
    Descends (chunk.ops.length - ·) (wcmuTurn outside chunk r valueSlotBytes) := by
  intro ip w w' hw
  funext stop s breaks nest
  unfold wcmuTurn
  split_ifs with _ hend
  · rfl
  · rfl
  · obtain ⟨op, hop, hlt⟩ := getElem?_of_walk hend
    have hahead : ∀ start, ip < start → w start = w' start := fun start hs =>
      hw start (Nat.sub_lt_sub_left hlt hs)
    simp only [hop, wcmuOp_congr hfwd hop hahead]

theorem coverageTurn_descends (outside : CoverageWalk) :
    Descends (chunk.ops.length - ·) (coverageTurn outside chunk.ops always) := by
  intro ip w w' hw
  funext stop hasYielded breakStates depth
  unfold coverageTurn
  split_ifs with _ hend
  · rfl
  · rfl
  · obtain ⟨op, hop, hlt⟩ := getElem?_of_walk hend
    have hahead : ∀ start, ip < start → w start = w' start := fun start hs =>
      hw start (Nat.sub_lt_sub_left hlt hs)
    simp only [hop, coverageOp_congr hfwd hop hahead]

/-! ## The errors of the walk that finds the cost -/

open Outcomes (Avoids)

omit hfwd in
theorem opWcetCycles_avoids {e : CostFault} (he : e.Foreign) (hlt : ip < chunk.ops.length) :
    Avoids e (opWcetCycles chunk cm extra ip) := by
  unfold opWcetCycles
  rw [List.getElem?_eq_getElem hlt]
  split
  · exact .error (by rintro rfl; exact he)
  · exact .ok _ _

omit hfwd in
theorem delimiterCost_avoids {e : CostFault} (he : e.Foreign) {present : Bool}
    (h : present = true → ip < chunk.ops.length) :
    Avoids e (delimiterCost chunk cm extra ip present) := by
  unfold delimiterCost
  split
  · next hp => exact opWcetCycles_avoids he (h hp)
  · exact .ok _ _

omit hfwd in
theorem iterationCount_avoids {e : CostFault} (he : e.Foreign) {singlePass : Bool} :
    Avoids e (iterationCount chunk ip singlePass) := by
  unfold iterationCount
  split
  · exact .ok _ _
  split
  · exact .ok _ _
  · exact .error (by rintro rfl; exact he)

omit hfwd in
theorem isEndLoop_lt {ops : List Op} (h : isEndLoop ops ip = true) : ip < ops.length := by
  unfold isEndLoop at h
  split at h
  · next hop => exact (List.getElem?_eq_some_iff.mp hop).1
  · cases h

/-- An instruction is priced without an error that the walk does not end in further on. -/
theorem wcetOp_avoids {e : CostFault} (he : e.Foreign) (hop : chunk.ops[ip]? = some op)
    {walk : WcetWalk}
    (hw : ∀ start, ip < start → ∀ stop cost bs nest, Avoids e (walk start stop cost bs nest))
    {cost : ℕ} {breakCosts : List ℕ} :
    Avoids e (wcetOp chunk cm clamp extra walk ip stop cost breakCosts nest op) := by
  have hnext := hw (ip + 1) (Nat.lt_succ_self ip)
  cases op with
  | ifOp target =>
    obtain ⟨hlt, hle⟩ := ifOp_forward hfwd hop
    simp only [wcetOp]
    cases hsome : elseBefore chunk.ops target with
    | none =>
      refine .bind (hnext _ _ _ _) fun _ _ => .bind (delimiterCost_avoids he fun hp => ?_)
        fun _ _ => hw _ (by omega) _ _ _ _
      simpa using hp
    | some endif =>
      obtain ⟨hendif, helse⟩ := elseBefore_forward hfwd hsome
      refine .bind (hnext _ _ _ _) fun _ _ => .bind (hw _ hlt _ _ _ _) fun _ _ =>
        .bind (opWcetCycles_avoids he helse) fun _ _ =>
        .bind (delimiterCost_avoids he fun hp => by simpa using hp) fun _ _ => ?_
      split
      · exact .ok _ _
      · exact hw _ (by omega) _ _ _ _
  | loop target =>
    simp only [wcetOp]
    refine .bind (hnext _ _ _ _) fun body _ => ?_
    split
    · exact .ok _ _
    · refine .bind (iterationCount_avoids he) fun _ _ =>
        .bind (delimiterCost_avoids he fun hp => ?_)
        fun _ _ => hw _ (loop_forward hfwd hop).1 _ _ _ _
      exact isEndLoop_lt (Bool.and_eq_true_iff.mp hp).2
  | «break» | trap | «return» => exact .ok _ _
  | _ => exact hnext _ _ _ _

/-- **The walk that finds the cost ends in no error but its own.** -/
theorem wcetRegionAt_avoids {e : CostFault} (he : e.Foreign) {fuel : ℕ}
    (hfuel : chunk.ops.length - ip < fuel) (stop cost : ℕ) (breakCosts : List ℕ) (nest : ℕ) :
    Avoids e (wcetRegionAt chunk cm clamp extra fuel ip stop cost breakCosts nest) := by
  induction fuel generalizing ip stop cost breakCosts nest with
  | zero => exact absurd hfuel (Nat.not_lt_zero _)
  | succ fuel ih =>
    rw [wcetRegionAt]
    split_ifs with _ hend
    · exact .error (by rintro rfl; exact he)
    · exact .ok _ _
    · obtain ⟨op, hop, hlt⟩ := getElem?_of_walk hend
      rw [hop]
      exact .bind (opWcetCycles_avoids he hlt) fun _ _ =>
        wcetOp_avoids hfwd he hop fun start hs _ _ _ _ => ih (by omega) _ _ _ _

/-! ## The ends of the walks -/

theorem wcetRegionAt_ends (outside : WcetWalk) : Ends (chunk.ops.length - ·)
    (wcetTurn outside chunk cm clamp extra)
    (wcetRegionAt chunk cm clamp extra (chunk.ops.length + 1)) := by
  rw [wcetRegionAt_eq_iterate, wcetTurn_outside panickedWcet outside]
  exact (wcetTurn_descends hfwd outside).ends (fun _ => Nat.lt_succ_of_le (Nat.sub_le _ _)) _

theorem wcmuRegionAt_ends (outside : McuWalk) : Ends (chunk.ops.length - ·)
    (wcmuTurn outside chunk r valueSlotBytes)
    (wcmuRegionAt chunk r valueSlotBytes (chunk.ops.length + 1)) := by
  rw [wcmuRegionAt_eq_iterate, wcmuTurn_outside panickedWcmu outside]
  exact (wcmuTurn_descends hfwd outside).ends (fun _ => Nat.lt_succ_of_le (Nat.sub_le _ _)) _

theorem analyzeYieldCoverageAt_ends (outside : CoverageWalk) : Ends (chunk.ops.length - ·)
    (coverageTurn outside chunk.ops always)
    (analyzeYieldCoverageAt chunk.ops always (chunk.ops.length + 1)) := by
  rw [analyzeYieldCoverageAt_eq_iterate, coverageTurn_outside passedCoverage outside]
  exact (coverageTurn_descends hfwd outside).ends (fun _ => Nat.lt_succ_of_le (Nat.sub_le _ _)) _

/-- **The walks over regions end**, from any state and on any part of a chunk whose targets lie
ahead: each asks of itself only about what begins further on, and enough turns give the same answer
whatever they start from. A read outside the instructions would be answered freely; none is made.
Blocks that nest too deep are refused. -/
theorem regionWalks_end :
    (∀ cm clamp extra,
      (∀ outside, Ends (chunk.ops.length - ·) (wcetTurn outside chunk cm clamp extra)
        (wcetRegionAt chunk cm clamp extra (chunk.ops.length + 1))) ∧
      ∀ start stop cost breakCosts nest,
        wcetRegionAt chunk cm clamp extra (chunk.ops.length + 1) start stop cost breakCosts nest ≠
          .error .panicked ∧
        (maxRegionDepth < nest → wcetRegionAt chunk cm clamp extra (chunk.ops.length + 1) start stop
          cost breakCosts nest = .error .nestedTooDeep)) ∧
    (∀ r valueSlotBytes,
      (∀ outside, Ends (chunk.ops.length - ·) (wcmuTurn outside chunk r valueSlotBytes)
        (wcmuRegionAt chunk r valueSlotBytes (chunk.ops.length + 1))) ∧
      ∀ start stop s breaks nest, maxRegionDepth < nest →
        wcmuRegionAt chunk r valueSlotBytes (chunk.ops.length + 1) start stop s breaks nest =
          .error .nestedTooDeep) ∧
    ∀ always,
      (∀ outside, Ends (chunk.ops.length - ·) (coverageTurn outside chunk.ops always)
        (analyzeYieldCoverageAt chunk.ops always (chunk.ops.length + 1))) ∧
      ∀ start stop hasYielded breakStates depth, maxRegionDepth < depth →
        analyzeYieldCoverageAt chunk.ops always (chunk.ops.length + 1) start stop hasYielded
          breakStates depth = (some false, breakStates) := by
  refine ⟨fun cm clamp extra => ⟨wcetRegionAt_ends hfwd, fun start stop cost breakCosts nest =>
    ⟨?_, fun hnest => ?_⟩⟩, fun r valueSlotBytes => ⟨wcmuRegionAt_ends hfwd,
    fun start stop s breaks nest hnest => ?_⟩, fun always => ⟨analyzeYieldCoverageAt_ends hfwd,
    fun start stop hasYielded breakStates depth hdepth => ?_⟩⟩
  · have hforeign : CostFault.Foreign .panicked := trivial
    exact wcetRegionAt_avoids hfwd hforeign (Nat.lt_succ_of_le (Nat.sub_le _ _)) stop cost
      breakCosts nest
  · rw [wcetRegionAt, if_pos hnest]
  · rw [wcmuRegionAt, if_pos hnest]
  · rw [analyzeYieldCoverageAt, if_pos hdepth]

end Forward

/-- A branch, a loop in it that ends behind the `Else`, and an alternative that ends in the loop. -/
def overlapping : Chunk where
  name := "f"
  ops := [.ifOp 3, .loop 5, .elseOp 4, .yield, .endIf, .endLoop 2, .return]
  constants := []
  structTemplates := []
  localCount := 0
  paramCount := 0
  blockType := .func
  paramTypes := []

/-- The walk over blocks that overlap ends after eight turns. -/
theorem overlapping_ends : checkForwardControlFlowTargets overlapping = .ok () ∧
    (∀ m, checkNesting m overlapping ≠ .ok ()) ∧
    ∀ outside base, (coverageTurn outside overlapping.ops [])^[8] base 0 7 false [] 0 =
      analyzeYieldCoverageAt overlapping.ops [] 8 0 7 false [] 0 := by
  have hfwd : checkForwardControlFlowTargets overlapping = .ok () := rfl
  have hends := fun outside => ((regionWalks_end hfwd).2.2 []).1 outside
  refine ⟨hfwd, ?_, fun outside base => ?_⟩
  · intro m h
    cases h
  · exact congrFun (congrFun (congrFun (congrFun ((hends outside).reached base 8 0
      (by decide)) 7) false) []) 0

end Keleusma
