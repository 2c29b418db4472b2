import Keleusma.Safety.Productivity
import Keleusma.Safety.StackBound
import Keleusma.Safety.Timing
import Keleusma.Verify.ResumeCount

/-!
# Resumes between resets

The monitor `sinceReset` counts the yields that have been executed since the run began, or since
the last `Reset`, in whatever frame. The number that the verifier finds for the chunk that the host
calls bounds the count in every run (`resumes_bounded`). The invariant charges what a frame has
executed to the calls through which it was entered.
-/

namespace Keleusma

open Saturating (u32Max)

variable {F : Type} {env : Env F} {known : List ℕ} {entry : ℕ}

/-! ## The count -/

/-- The count after an instruction, or after running off the end. -/
def countAfter : Option Op → List ℕ → List ℕ
  | some .yield, ks => ks.map (· + 1)
  | some .reset, ks => ks.map fun _ => 0
  | _, ks => ks

/-- The number of yields since the run began, or since the last `Reset`. -/
def sinceReset (env : Env F) : Monitor F ℕ where
  enter _ := 0
  exec vm ks :=
    match vm.frames with
    | [] => ks
    | f :: _ => countAfter (nextOp env f) ks
  resume _ ks := ks

theorem sinceReset_exec {vm : Vm F} {f : CallFrame} {rest : List CallFrame} {op : Option Op}
    {ks : List ℕ} (hf : vm.frames = f :: rest) (hop : (env.ops f.chunkIdx)[f.ip]? = op) :
    (sinceReset env).exec vm ks = countAfter op ks := by
  rw [sinceReset]
  dsimp only
  rw [hf]
  dsimp only
  rw [nextOp, hop]

/-- What counts have in common that stop before the greatest value that calls are charged. -/
abbrev Counts (charged count : ℕ) : Prop := Saturating.Covers (u32Max - 1) charged count

/-- What a frame has counted. -/
def tally (env : Env F) (known : List ℕ) (idx : ℕ) (es : List ℕ) : ℕ :=
  weight (yieldPriceAt known (env.ops idx)) es

theorem tally_snoc {idx p : ℕ} {op : Op} {es : List ℕ} (hop : (env.ops idx)[p]? = some op) :
    tally env known idx (es ++ [p]) = tally env known idx es + yieldPrice known op := by
  have hprice : yieldPriceAt known (env.ops idx) p = yieldPrice known op := by
    rw [yieldPriceAt, hop, Option.elim]
  rw [tally, weight, List.map_append, List.sum_append, List.map_singleton, List.sum_singleton,
    hprice]
  rfl

/-- The callers of a chunk, down to the chunk that the host has called: each has last executed the
call of the chunk above it. What they had counted before the calls makes the given sum. -/
inductive CallersTallied (env : Env F) (known : List ℕ) (entry : ℕ) :
    ℕ → List CallFrame → List (List ℕ) → ℕ → Prop
  | nil : CallersTallied env known entry entry [] [] 0
  | cons {idx f rest es p args logs k} (hop : (env.ops f.chunkIdx)[p]? = some (.call idx args))
      (hidx : idx < env.module.chunks.length)
      (hrest : CallersTallied env known entry f.chunkIdx rest logs k) :
      CallersTallied env known entry idx (f :: rest) ((es ++ [p]) :: logs)
        (tally env known f.chunkIdx es + k)

/-- The frames have counted all yields since the last reset. -/
inductive Tallied (env : Env F) (known : List ℕ) (entry : ℕ) :
    List CallFrame → List (List ℕ) → ℕ → Prop
  | ended {k} : Tallied env known entry [] [] k
  | running {f rest es logs j k} (hcallers : CallersTallied env known entry f.chunkIdx rest logs j)
      (hcounts : Counts (tally env known f.chunkIdx es + j) k) :
      Tallied env known entry (f :: rest) (es :: logs) k

/-! ## What a frame counts -/

/-- What the verifier has found for a chunk covers what its frames count. -/
structure FramesCounted (env : Env F) (known : List ℕ) (entry n : ℕ) (reach : ℕ → Prop)
    (frames : List CallFrame) (logs : List (List ℕ)) : Prop where
  called : ∀ f es, (f, es) ∈ frames.zip logs → reach f.chunkIdx →
    Counts (known.getD f.chunkIdx 0) (tally env known f.chunkIdx es)
  entered : ∀ f es, (f, es) ∈ frames.zip logs → f.chunkIdx = entry →
    Counts n (tally env known f.chunkIdx es)

theorem FramesCounted.tail {n : ℕ} {reach : ℕ → Prop} {f : CallFrame} {rest : List CallFrame}
    {es : List ℕ} {logs : List (List ℕ)}
    (h : FramesCounted env known entry n reach (f :: rest) (es :: logs)) :
    FramesCounted env known entry n reach rest logs where
  called g fs hg := h.called g fs (List.mem_cons_of_mem _ hg)
  entered g fs hg := h.entered g fs (List.mem_cons_of_mem _ hg)

theorem Tallied.exists_cons {f : CallFrame} {rest : List CallFrame} {logs : List (List ℕ)} {k : ℕ}
    (h : Tallied env known entry (f :: rest) logs k) : ∃ es logs', logs = es :: logs' := by
  cases h with
  | running => exact ⟨_, _, rfl⟩

/-- The frame goes on behind an instruction that is no `Reset`. -/
theorem Tallied.goesOn {f : CallFrame} {rest : List CallFrame} {es : List ℕ}
    {logs : List (List ℕ)} {op : Op} {ip k k' : ℕ}
    (h : Tallied env known entry (f :: rest) (es :: logs) k)
    (hop : (env.ops f.chunkIdx)[f.ip]? = some op) (hne : op ≠ .reset)
    (hk : k' ≤ k + yieldPrice known op) :
    Tallied env known entry ({ f with ip := ip } :: rest)
      (extended (fun _ => false) f.ip op es :: logs) k' := by
  have hext : extended (fun _ => false) f.ip op es = es ++ [f.ip] :=
    if_neg fun h => hne (eq_of_beq h)
  rw [hext]
  cases h with
  | running hcallers hcounts =>
    refine .running hcallers ?_
    have hsum : tally env known f.chunkIdx (es ++ [f.ip]) = _ := tally_snoc hop
    unfold Counts Saturating.Covers at *
    dsimp only
    omega

section Report

variable {n : ℕ} {reach : ℕ → Prop} (hreport : ResumeReport env.module entry n known reach)
include hreport

/-- Calls lead from the entry to the chunks of all frames. -/
theorem CallersTallied.reached {idx k : ℕ} {rest : List CallFrame} {logs : List (List ℕ)}
    (h : CallersTallied env known entry idx rest logs k) : reach idx := by
  induction h with
  | nil => exact hreport.entered
  | cons hop hidx _ ih => exact hreport.called _ _ ih ⟨_, List.mem_of_getElem? hop, hidx⟩

/-- **What the callers have counted is within the bound**, together with what the frame above them
may still count. -/
theorem CallersTallied.bound {idx k w : ℕ} {rest : List CallFrame} {logs : List (List ℕ)}
    (h : CallersTallied env known entry idx rest logs k)
    (hframes : FramesCounted env known entry n reach rest logs)
    (hknown : Counts (known.getD idx 0) w) (hentry : idx = entry → Counts n w) :
    Counts n (w + k) := by
  induction h generalizing w with
  | nil => exact hentry rfl
  | @cons idx f rest es p args logs k hop hidx hrest ih =>
    have hmem : (f, es ++ [p]) ∈ (f :: rest).zip ((es ++ [p]) :: logs) := List.mem_cons_self
    -- the call is charged for what its callee has counted
    have hle {b : ℕ} (h : Counts b (tally env known f.chunkIdx (es ++ [p]))) :
        Counts b (w + tally env known f.chunkIdx es) := by
      rw [tally_snoc hop, yieldPrice] at h
      unfold Counts Saturating.Covers at *
      omega
    have hbound := ih hframes.tail (hle (hframes.called f _ hmem (hrest.reached hreport)))
      fun heq => hle (hframes.entered f _ hmem heq)
    rwa [Nat.add_assoc] at hbound

/-- All frames together keep to the bound. -/
theorem Tallied.bound {f : CallFrame} {rest : List CallFrame} {logs : List (List ℕ)} {k : ℕ}
    (h : Tallied env known entry (f :: rest) logs k)
    (hframes : FramesCounted env known entry n reach (f :: rest) logs) : Counts n k := by
  cases h with
  | @running _ _ es logs j _ hcallers hcounts =>
    have hmem : (f, es) ∈ (f :: rest).zip (es :: logs) := List.mem_cons_self
    have hbound := hcallers.bound hreport hframes.tail
      (hframes.called f _ hmem (hcallers.reached hreport)) (hframes.entered f _ hmem)
    unfold Counts Saturating.Covers at *
    omega

/-- What the chunk on top has counted is charged to its caller when it returns. -/
theorem Tallied.returns {f : CallFrame} {rest : List CallFrame} {es : List ℕ}
    {logs : List (List ℕ)} {k : ℕ} (h : Tallied env known entry (f :: rest) (es :: logs) k)
    (hframes : FramesCounted env known entry n reach (f :: rest) (es :: logs)) :
    Tallied env known entry rest logs k := by
  cases h with
  | running hcallers hcounts =>
    have hcalled := hframes.called f es List.mem_cons_self (hcallers.reached hreport)
    cases hcallers with
    | nil => exact .ended
    | @cons _ g rest es' p args logs j hop hidx hrest =>
      refine .running hrest ?_
      rw [tally_snoc hop, yieldPrice]
      unfold Counts Saturating.Covers at *
      omega

/-- **A step keeps the charges.** -/
theorem Tallied.exec {vm vm' : Vm F} {o : Outcome F} {logs : List (List ℕ)} {k : ℕ}
    (h : Tallied env known entry vm.frames logs k)
    (hframes : FramesCounted env known entry n reach vm.frames logs)
    (hs : (step env).run vm = .ok (o, vm')) :
    ∃ k', (sinceReset env).exec vm [k] = [k'] ∧
      Tallied env known entry vm'.frames
        ((executedRecord env fun _ => false).exec vm logs) k' ∧
      (vm'.frames = [] → k' = k) := by
  cases step_moved hs with
  | @advance f rest op ip' _ ha hstays =>
    rw [ha.frames] at h
    rw [ha.frames', executedRecord_exec ha.frames ha.op_at, sinceReset_exec ha.frames ha.op_at]
    obtain ⟨es, logs, rfl⟩ := h.exists_cons
    have hcount : countAfter (some op) [k] = [k] ∧ op ≠ .reset := by
      cases op <;> first | exact hstays.elim | exact ⟨rfl, by rintro ⟨⟩⟩
    rw [executedAfter_stays hstays]
    exact ⟨k, hcount.1, h.goesOn ha.op_at hcount.2 (Nat.le_add_right _ _), by rintro ⟨⟩⟩
  | @reset f rest pos _ hf hop hlen hpos hf' =>
    rw [hf] at h
    rw [hf', executedRecord_exec hf hop, sinceReset_exec hf hop]
    cases h with
    | running hcallers hcounts => exact ⟨0, rfl, .running hcallers .zero, by rintro ⟨⟩⟩
  | @call f rest idx args _ hf hop hidx hn hlc hf' =>
    rw [hf] at h
    rw [hf', executedRecord_exec hf hop, sinceReset_exec hf hop]
    cases h with
    | running hcallers hcounts =>
      refine ⟨k, rfl, .running (.cons hop hidx hcallers) ?_, by rintro ⟨⟩⟩
      exact (Nat.zero_add _).symm ▸ hcounts
  | @returnTo f rest v _ hf hop hv hne hf' =>
    rw [hf] at h hframes
    rw [hf', executedRecord_exec hf hop, sinceReset_exec hf hop]
    obtain ⟨es, logs, rfl⟩ := h.exists_cons
    exact ⟨k, rfl, h.returns hreport hframes, fun _ => rfl⟩
  | @runOffTo f rest _ hf hop hne hf' =>
    rw [hf] at h hframes
    rw [hf', executedRecord_exec hf hop, sinceReset_exec hf hop]
    obtain ⟨es, logs, rfl⟩ := h.exists_cons
    exact ⟨k, rfl, h.returns hreport hframes, fun _ => rfl⟩
  | @finish f v _ hf hop hf' =>
    rw [hf] at h hframes
    rw [hf']
    obtain ⟨es, logs, rfl⟩ := h.exists_cons
    have hleft := h.returns hreport hframes
    rcases hop with hop | hop
    · rw [executedRecord_exec hf hop, sinceReset_exec hf hop]
      exact ⟨k, rfl, hleft, fun _ => rfl⟩
    · rw [executedRecord_exec hf hop, sinceReset_exec hf hop]
      exact ⟨k, rfl, hleft, fun _ => rfl⟩
  | @yield f rest v w _ hf hop hv hf' =>
    rw [hf] at h
    rw [hf', executedRecord_exec hf hop, sinceReset_exec hf hop]
    obtain ⟨es, logs, rfl⟩ := h.exists_cons
    exact ⟨k + 1, rfl, h.goesOn hop (by rintro ⟨⟩) le_rfl, by rintro ⟨⟩⟩

end Report

/-! ## Runs -/

section Frame

variable {c : Chunk} {f : CallFrame} {es : List ℕ} {n lo hi : ℕ}

/-- A trail behind the first instruction of a chunk, with that instruction. -/
theorem Trail.cons {ops : List Op} {op : Op} (h : Trail ops 1 es) (hop : ops[0]? = some op)
    (hnext : 1 ∈ op.next 0) : Trail ops 0 (0 :: es) where
  chain := List.isChain_cons.mpr ⟨fun q hq => h.start q hq ▸ ⟨op, hop, hnext⟩, h.chain⟩
  start _ hp := (Option.some.inj hp).symm

/-- No loop has its test at the first instruction of a chunk. -/
theorem KeepsBounds.cons {ops : List Op} {bound : ℕ → Option ℕ} (h : KeepsBounds ops bound es) :
    KeepsBounds ops bound (0 :: es) := by
  intro l t n hl hn seg hseg hnot
  rcases List.infix_cons_iff.mp hseg with hprefix | hseg
  · rcases List.prefix_cons_iff.mp hprefix with rfl | ⟨seg, rfl, hpre⟩
    · exact Nat.zero_le n
    · rw [List.count_cons_of_ne (by unfold loopHeader; omega)]
      exact h l t n hl hn seg hpre.isInfix fun hmem => hnot (List.mem_cons_of_mem _ hmem)
  · exact h l t n hl hn seg hseg hnot

/-- The count of a region that a chunk begins with covers what a frame has executed of it. -/
theorem tally_covered (hc : env.chunk? f.chunkIdx = some c) (hr : Region Eq c.ops none 0 hi)
    (hn : regionYieldCount c 0 hi known = .ok n)
    (htrail : Trail c.ops 0 es ∨ c.ops[0]? = some .stream ∧ Trail c.ops 1 es)
    (hes : ∀ p ∈ es, p < hi) (hkeeps : KeepsBounds c.ops (extractLoopIterationBound c) es) :
    Counts n (tally env known f.chunkIdx es) := by
  rw [tally, ops_of_chunk? hc]
  have hcovers : Saturating.Covers u32Max n (weight (yieldPriceAt known c.ops) es) := by
    rcases htrail with htrail | ⟨hstream, htrail⟩
    · exact regionYieldCount_covers hr hn htrail hes hkeeps
    · by_cases hnil : es = []
      · rw [hnil]
        exact .zero
      · have hpos : 0 < hi := by
          obtain ⟨p, hp⟩ := List.exists_mem_of_ne_nil es hnil
          exact (Nat.zero_le p).trans_lt (hes p hp)
        exact (regionYieldCount_covers hr hn (htrail.cons hstream (List.mem_singleton_self _))
          (List.forall_mem_cons.mpr ⟨hpos, hes⟩) hkeeps.cons).mono (Nat.le_add_left _ _)
  unfold Counts
  unfold Saturating.Covers at *
  omega

/-- A chunk whose instructions count nothing. -/
theorem tally_zero {idx : ℕ} (h : ∀ op ∈ env.ops idx, yieldPrice known op = 0) :
    Counts n (tally env known idx es) := by
  have hzero : tally env known idx es = 0 := by
    rw [tally, weight, List.sum_eq_zero_iff_forall_eq_nat]
    intro w hw
    obtain ⟨p, -, rfl⟩ := List.mem_map.mp hw
    rw [yieldPriceAt]
    cases hop : (env.ops idx)[p]? with
    | none => rfl
    | some op => exact h op (List.mem_of_getElem? hop)
  rw [hzero]
  exact .zero

/-- There are no instructions where there is no chunk. -/
theorem tally_none {idx : ℕ} (hc : env.chunk? idx = none) : Counts n (tally env known idx es) := by
  refine tally_zero ?_
  rw [Env.ops, hc]
  exact List.forall_mem_nil _

end Frame

/-- What is known of the record of a frame that executes a chunk. -/
structure FrameRecord (c : Chunk) (f : CallFrame) (es : List ℕ) : Prop where
  trail : Trail c.ops 0 (es ++ [f.ip]) ∨ c.ops[0]? = some .stream ∧ Trail c.ops 1 (es ++ [f.ip])
  goesOn : ∀ p ∈ es, p < c.ops.length ∧ c.ops[p]? ≠ some .reset
  keeps : KeepsBounds c.ops (extractLoopIterationBound c) es

theorem FrameRecord.left {c : Chunk} {f : CallFrame} {es : List ℕ} (h : FrameRecord c f es) :
    Trail c.ops 0 es ∨ c.ops[0]? = some .stream ∧ Trail c.ops 1 es :=
  h.trail.imp Trail.left fun h => ⟨h.1, h.2.left⟩

/-- The records of a run keep the bounds of the loops. -/
def LoopsKept (env : Env F) (ok : Vm F → Prop) (entry : ℕ) : Prop :=
  ∀ cfg logs, (executedRecord env fun _ => false).Reaches env ok entry cfg logs →
    ∀ f es c, (f, es) ∈ cfg.vm.frames.zip logs → env.chunk? f.chunkIdx = some c →
      KeepsBounds c.ops (extractLoopIterationBound c) es

section Accepted

variable (hv : verify env.module = .ok ()) (hm : ∀ c ∈ env.module.chunks, ElseMatched c.ops)
  (hw : ∀ c ∈ env.module.chunks, IterationWhole c) {ok : Vm F → Prop}
  (hkept : LoopsKept env ok entry)
include hv hm hw hkept

omit hm in
theorem frameRecord {cfg : Config F} {logs : List (List ℕ)}
    (h : (executedRecord env fun _ => false).Reaches env ok entry cfg logs)
    {f : CallFrame} {es : List ℕ} {c : Chunk} (hmem : (f, es) ∈ cfg.vm.frames.zip logs)
    (hc : env.chunk? f.chunkIdx = some c) : FrameRecord c f es := by
  have hin : c ∈ env.module.chunks := List.mem_of_getElem? hc
  have ha := accepted_of_chunk? hv hc
  have hrec : RecordOk env (fun _ => false) f es :=
    (List.forall₂_iff_zip.mp (executedRecord_trails h)).2 hmem
  refine ⟨?_, fun p hp => ?_, hkept cfg logs h f es c hmem hc⟩
  · obtain ⟨start, hbegins, htrail⟩ := hrec.trail
    rw [ops_of_chunk? hc] at hbegins htrail
    rcases hbegins with rfl | ⟨p, op, -, hanew, -⟩ | ⟨s, hs, rfl⟩
    · exact .inl htrail
    · cases hanew
    · -- the frame has come back to its `Stream`, which is the first instruction
      have hs := findIdx?_getElem? hs
      have hfirst := (hw c hin (ha.markers (.inl (List.mem_of_getElem? hs))).1).1
      obtain rfl := ha.stream_unique hs hfirst
      exact .inr ⟨hfirst, htrail⟩
  · obtain ⟨op, hop, -, hne⟩ := hrec.goesOn p hp
    rw [ops_of_chunk? hc] at hop
    exact ⟨(List.getElem?_eq_some_iff.mp hop).1,
      fun hr => hne (Option.some.inj (hop.symm.trans hr))⟩

variable {n : ℕ} {reach : ℕ → Prop} (hreport : ResumeReport env.module entry n known reach)
include hreport

theorem called_counted {cfg : Config F} {logs : List (List ℕ)}
    (h : (executedRecord env fun _ => false).Reaches env ok entry cfg logs)
    {f : CallFrame} {es : List ℕ} (hmem : (f, es) ∈ cfg.vm.frames.zip logs)
    (hreach : reach f.chunkIdx) :
    Counts (known.getD f.chunkIdx 0) (tally env known f.chunkIdx es) := by
  cases hc : env.chunk? f.chunkIdx with
  | none => exact tally_none hc
  | some c =>
    have hframe : FrameRecord c f es := frameRecord hv hw hkept h hmem hc
    have hmatched : ElseMatched c.ops := hm c (List.mem_of_getElem? hc)
    have hnested : WellNested c.ops :=
      (checkNesting_region (accepted_of_chunk? hv hc).nesting).matched hmatched
    rcases hreport.counted _ c hreach hc with hn | hzero
    · exact tally_covered hc hnested hn hframe.left (fun p hp => (hframe.goesOn p hp).1)
        hframe.keeps
    · exact tally_zero (ops_of_chunk? hc ▸ hzero)

/-- What the verifier has found covers what the frames of a run count. -/
theorem framesCounted {cfg : Config F} {logs : List (List ℕ)}
    (h : (executedRecord env fun _ => false).Reaches env ok entry cfg logs) :
    FramesCounted env known entry n reach cfg.vm.frames logs := by
  have hcalled {f : CallFrame} {es : List ℕ} (hmem : (f, es) ∈ cfg.vm.frames.zip logs)
      (hreach : reach f.chunkIdx) :
      Counts (known.getD f.chunkIdx 0) (tally env known f.chunkIdx es) :=
    called_counted hv hm hw hkept hreport h hmem hreach
  refine ⟨fun f es => hcalled, fun f es hmem heq => ?_⟩
  cases hc : env.chunk? f.chunkIdx with
  | none => exact tally_none hc
  | some c =>
    have hframe : FrameRecord c f es := frameRecord hv hw hkept h hmem hc
    rcases hreport.result c (heq ▸ hc) with ⟨-, hn⟩ | ⟨hstream, ⟨r, hr, hn⟩⟩ | hzero
    · rw [hn, ← heq]
      exact hcalled hmem (heq ▸ hreport.entered)
    · obtain ⟨hfirst, p, hp, hregion⟩ := hw c (List.mem_of_getElem? hc) hstream
      have ha := accepted_of_chunk? hv hc
      obtain rfl : r = p := position_unique (ha.markers (.inr (List.mem_of_getElem? hp))).2.2
        (findIdx?_getElem? hr) hp
      have hwhole : Region Eq c.ops none 0 r := .leaf hfirst rfl hregion
      have hnot : r ∉ es := fun hmem => (hframe.goesOn r hmem).2 hp
      have hbefore : ∀ q ∈ es, q < r := by
        rcases hframe.trail with htrail | ⟨-, htrail⟩
        · exact (htrail.stays hwhole hnot).1
        · exact (htrail.stays hregion hnot).1
      exact tally_covered hc hwhole hn hframe.left hbefore hframe.keeps
    · exact tally_zero (ops_of_chunk? hc ▸ hzero)

/-- **The frames of a run have counted all yields since the last reset.** -/
theorem tallied_run {cfg : Config F} {ks : List ℕ}
    (h : (sinceReset env).Reaches env ok entry cfg ks) :
    ∃ logs k, ks = [k] ∧
      (executedRecord env fun _ => false).Reaches env ok entry cfg logs ∧
      Tallied env known entry cfg.vm.frames logs k ∧ Counts n k := by
  induction h with
  | start h =>
    refine ⟨_, 0, rfl, .start h, ?_, .zero⟩
    obtain ⟨vm, shared, args, hidle, hcall, -⟩ := h
    obtain ⟨-, -, -, -, hframes, -, -⟩ := callFunction_ok hidle hcall
    rw [hframes]
    exact .running .nil .zero
  | @exec vm vm' o ks _ hok hs ih =>
    obtain ⟨logs, k, rfl, hrun, htally, hle⟩ := ih
    obtain ⟨k', hk', htally', hend⟩ := htally.exec hreport
      (framesCounted hv hm hw hkept hreport hrun) hs
    have hrun' := Monitor.Reaches.exec hrun hok hs
    refine ⟨_, k', hk', hrun', htally', ?_⟩
    have hcounted := framesCounted hv hm hw hkept hreport hrun'
    dsimp only at hcounted
    cases hf : vm'.frames with
    | nil => exact (hend hf).symm ▸ hle
    | cons f rest =>
      rw [hf] at htally' hcounted
      exact htally'.bound hreport hcounted
  | resume _ shared input hst hs ih =>
    obtain ⟨logs, k, rfl, hrun, htally, hle⟩ := ih
    refine ⟨logs, k, rfl, .resume hrun shared input hst hs, ?_, hle⟩
    rwa [(resume_ok hs).frames]

end Accepted

/-- Control comes to every loop that has a bound with the words that the verifier takes it to begin
with. -/
def CountsStep (env : Env F) (vm : Vm F) : Prop :=
  HeightStep env vm ∧ ∀ idx c l n, env.chunk? idx = some c → extractLoopIterationBound c l = some n →
    EntersLoop env idx l vm

/-- **The number of resumes is bounded in every run.** In a run of a disciplined program no more
yields are executed between two resets, or in a whole call, than the verifier has found for the
chunk that the host calls, in this chunk and in all that it calls together. -/
theorem resumes_bounded (hv : verify env.module = .ok ()) (hd : Disciplined env)
    (hsuited : Suited env)
    (hloops : ∀ c ∈ env.module.chunks, ∀ l t k, c.ops[l]? = some (.loop t) →
      extractLoopIterationBound c l = some k → CompiledLoop c l ∧ LoopWords env c l)
    {n : ℕ} (hn : maxResumesBeforeReset env.module entry = .ok n) (hlt : n < u32Max - 1)
    {cfg : Config F} {ks : List ℕ}
    (h : (sinceReset env).Reaches env (fun _ => True) entry cfg ks) : ∀ k ∈ ks, k ≤ n := by
  obtain ⟨known, reach, hreport⟩ := maxResumesBeforeReset_report hn
  have hm : ∀ c ∈ env.module.chunks, ElseMatched c.ops := fun c hc => (hd.chunks c hc).matched
  have hkept : LoopsKept env (HeightStep env) entry := by
    intro cfg logs h f es c hmem hc l t k hl hk seg hseg
    obtain ⟨hcomp, hwords⟩ := hloops c (List.mem_of_getElem? hc) l t k hl hk
    exact passes_of_bound hv hsuited hc (hm c (List.mem_of_getElem? hc)) hl hk hcomp hwords
      (fun _ h => h) h hmem rfl seg (hseg.trans (List.prefix_append es _).isInfix)
  obtain ⟨_, k, rfl, -, -, hle⟩ := tallied_run hv hm (fun c hc => (hd.chunks c hc).whole) hkept
    hreport (h.mono fun vm _ => hd.heightStep hv vm)
  exact List.forall_mem_singleton.mpr (hle.le hlt)

/-! ## An example -/

theorem delegates_leaves : ∀ c ∈ (plainEnv delegates).module.chunks, ∀ op ∈ c.ops,
    op.isDelimiter = false := by decide

theorem delegates_disciplined : Disciplined (plainEnv delegates) := by
  refine disciplined_of_tables fun c hc => ?_
  have hleaves := delegates_leaves c hc
  have hw := delegates_whole c hc
  rcases List.mem_pair.mp hc with rfl | rfl
  · exact ⟨⟨[0, 0, 1, 0], by constructor <;> decide⟩, hleaves, hw⟩
  · exact ⟨⟨[0, 1, 1], by constructor <;> decide⟩, hleaves, hw⟩

theorem delegates_suited : Suited (plainEnv delegates) where
  narrow := le_rfl
  wide := le_rfl
  one := ⟨by decide, by decide⟩
  params c hc := by
    rcases List.mem_pair.mp hc with rfl | rfl <;> exact le_rfl

/-- When `delegates` comes to its `Reset` one value has been delivered, as many as the verifier has
found. -/
theorem delegates_resumes : ∃ vm ks, (sinceReset (plainEnv delegates)).Reaches
      (plainEnv delegates) (fun _ => True) 0 ⟨vm, .running⟩ ks ∧
    vm.frames = [⟨0, 3, 0⟩] ∧ ks = [1] ∧ maxResumesBeforeReset delegates 0 = .ok 1 ∧
    ∀ k ∈ ks, k ≤ 1 := by
  have hreach : (sinceReset (plainEnv delegates)).Reaches (plainEnv delegates)
      (fun _ => True) 0 ⟨_, .running⟩ _ :=
    Monitor.playCall_reaches freshVm_idle (show Monitor.playCall _ _ freshVm 0 []
      [none, none, none, none, some .unit, none, none] = some _ from rfl)
  have hn : maxResumesBeforeReset (plainEnv delegates).module 0 = .ok 1 := rfl
  exact ⟨_, _, hreach, rfl, rfl, hn, resumes_bounded rfl delegates_disciplined delegates_suited
    (fun c hc l t k hop => by cases delegates_leaves c hc _ (List.mem_of_getElem? hop)) hn
    (by decide) hreach⟩

/-! ## Yields in loops -/

/-- A `yield fn` that yields once in each turn of a loop, with the given instructions before it. -/
def yieldsInLoop (before : List Op) (constants : List ConstValue) : Chunk :=
  let l := before.length
  { plainChunk (before ++ [.loop (l + 14), .getLocal 0, .getLocal 1, .cmpGe, .breakIf (l + 14),
      .pushImmediate 1, .yield, .popN 1, .getLocal 0, .const 1, .checkedAdd, .popN 2, .setLocal 0,
      .endLoop (l + 1), .getLocal 0, .return]) .reentrant 2 0 with constants := constants }

/-- It counts from 0 to 2. -/
def yieldsTwiceInLoop : Chunk :=
  yieldsInLoop [.const 0, .setLocal 0, .const 2, .setLocal 1] [.int 0, .int 1, .int 2]

/-- A `loop fn` that calls it, and yields once itself. -/
def loopsTwice : Module := plainModule [
  plainChunk [.stream, .call 1 0, .yield, .popN 1, .reset] .stream 0 0, yieldsTwiceInLoop]

theorem loopsTwice_accepted : verify (plainEnv loopsTwice).module = .ok () :=
  verify_of_accepts (by decide +kernel)

theorem loopsTwice_tables :
    ∀ c ∈ (plainEnv loopsTwice).module.chunks, ∃ table, FollowsHeights c table := by
  intro c hc
  rcases List.mem_pair.mp hc with rfl | rfl
  · exact ⟨[0, 0, 1, 1, 0], by constructor <;> decide⟩
  · exact ⟨[0, 1, 0, 1, 0, 0, 1, 2, 1, 0, 1, 1, 0, 1, 2, 3, 1, 0, 0, 1],
      by constructor <;> decide⟩

theorem loopsTwice_whole : ∀ c ∈ (plainEnv loopsTwice).module.chunks, IterationWhole c := by
  intro c hc hs
  rcases List.mem_pair.mp hc with rfl | rfl
  · exact ⟨rfl, 4, rfl, .leaf rfl rfl (.leaf rfl rfl (.leaf rfl rfl .nil))⟩
  · cases hs

theorem loopsTwice_suited : Suited (plainEnv loopsTwice) where
  narrow := le_rfl
  wide := le_rfl
  one := ⟨by decide, by decide⟩
  params c hc := by
    rcases List.mem_pair.mp hc with rfl | rfl <;> decide

/-- It has one loop with a bound. -/
theorem loopsTwice_loop {c : Chunk} (hc : c ∈ (plainEnv loopsTwice).module.chunks) {l n : ℕ}
    (hn : extractLoopIterationBound c l = some n) : c = yieldsTwiceInLoop ∧ l = 4 := by
  have hlt : l < c.ops.length := by
    by_contra hge
    unfold extractLoopIterationBound at hn
    rw [if_pos (by omega)] at hn
    cases hn
  rcases List.mem_pair.mp hc with rfl | rfl
  · have hnone : ∀ l < 5, extractLoopIterationBound
        (plainChunk [.stream, .call 1 0, .yield, .popN 1, .reset] .stream 0 0) l = none := by decide
    cases (hnone l hlt).symm.trans hn
  · have hfour : ∀ l < 20, extractLoopIterationBound yieldsTwiceInLoop l ≠ none → l = 4 := by decide
    exact ⟨rfl, hfour l hlt (by rw [hn]; rintro ⟨⟩)⟩

theorem yieldsTwiceInLoop_compiled : CompiledLoop yieldsTwiceInLoop 4 where
  sets slot h := by
    refine ⟨Nat.zero_le _, ?_⟩
    have hne : 1 ≠ 0 := by decide
    rcases h with h | h
    · cases h
      exact ⟨0, .earlier (i := 2) rfl rfl hne (.here (i := 0) rfl rfl rfl)⟩
    · cases h
      exact ⟨2, .here (i := 2) rfl rfl rfl⟩
  steps m i hm hi := by
    obtain rfl : m = 17 := (Nat.succ.inj (Op.loop.inj (Option.some.inj hm))).symm
    cases hi
    rfl
  within m p hm hlo hhi hs := absurd (List.mem_of_getElem? hs) (by decide)

theorem yieldsTwiceInLoop_words : LoopWords (plainEnv loopsTwice) yieldsTwiceInLoop 4 := by
  intro slot n hset
  have hmem : ConstValue.int n ∈ [ConstValue.int 0, .int 1, .int 2] := hset.mem
  have hn : n = 0 ∨ n = 1 ∨ n = 2 := by
    simpa using hmem
  rcases hn with rfl | rfl | rfl <;> exact ⟨by decide, by decide⟩

/-- A function that counts from 0 to 1, and before that does not execute an assignment of 1 to the
variable. -/
def skipsThenYields : Chunk :=
  yieldsInLoop [.const 0, .setLocal 0, .const 1, .setLocal 1, .pushImmediate 2, .ifOp 8, .const 1,
    .setLocal 0, .endIf] [.int 0, .int 1]

end Keleusma
