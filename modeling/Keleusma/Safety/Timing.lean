import Keleusma.Safety.CountedLoops
import Keleusma.Verify.WorstCaseSound
import Mathlib.Data.Finset.Max

/-!
# Execution time along runs

The bounds that the verifier finds hold in every run: what a frame has executed since it was entered
(`fn`), since it was resumed (`yield fn`) or since `Stream` (`loop fn`) costs no more than the bound
of its chunk (`execution_time_bounded`). What the frames above it execute is charged to them.
-/

namespace Keleusma

open Saturating (u32Max)

variable {F : Type} {env : Env F} {ops : List Op} {start m p : ℕ} {es : List ℕ}

/-! ## Trails that stop at a marker -/

/-- A trail that has not gone through the end of a region is within it. -/
theorem Trail.stays (hr : Region Eq ops none start m) (h : Trail ops start (es ++ [p]))
    (hm : m ∉ es) : (∀ q ∈ es, q < m) ∧ (p ≠ m → p < m) := by
  obtain ⟨stop, hstop⟩ := (es ++ [p]).toFinset.exists_nat_subset_range
  obtain ⟨inner, rest, heq, hinner, hrest⟩ := h.split hr (s := stop) (by rintro _ ⟨⟩)
    fun q hq => Finset.mem_range.mp (hstop (List.mem_toFinset.mpr hq))
  rcases hrest.cases with rfl | ⟨gs, rfl, -⟩
  · rw [List.append_nil] at heq
    rw [← heq] at hinner
    exact ⟨fun q hq => hinner q (List.mem_append_left _ hq),
      fun _ => hinner p (List.mem_append_right _ (List.mem_singleton_self p))⟩
  · -- the trail comes to the end of the region only in its last step
    rcases List.eq_nil_or_concat gs with rfl | ⟨gs', q, rfl⟩
    · obtain ⟨rfl, hpm⟩ := List.append_inj' heq rfl
      obtain rfl := List.singleton_inj.mp hpm
      exact ⟨hinner, fun h => absurd rfl h⟩
    · rw [List.concat_eq_append, ← List.cons_append, ← List.append_assoc] at heq
      obtain ⟨rfl, -⟩ := List.append_inj' heq rfl
      exact absurd (List.mem_append_right inner List.mem_cons_self) hm

/-! ## The bounds of a chunk -/

section Bounds

variable {chunk : Chunk} {cm : CostModel} {extra : List ℕ} {text : Chunk → List ℕ}
  {bounds : List NativeIterationBound} {n k : ℕ} {ys : List ℕ}

theorem wcetWholeChunk_func (hb : chunk.blockType = .func)
    (h : wcetWholeChunk text chunk cm bounds = .ok n) :
    ∃ k, wcetRegion chunk cm false (chunkWcetExtra text chunk bounds) 0 chunk.ops.length = .ok k ∧
      n = Saturating.add u32Max k (externalNativeWcet chunk bounds) := by
  unfold wcetWholeChunk at h
  rw [hb] at h
  obtain ⟨_, -, h⟩ := bind_eq_ok h
  obtain ⟨k, hk, h⟩ := bind_eq_ok h
  exact ⟨k, hk, (Except.ok.inj h).symm⟩

theorem wcetWholeChunk_reentrant {y : ℕ} (hb : chunk.blockType = .reentrant)
    (hy : topLevelYields 0 0 chunk.ops = some (y :: ys))
    (h : wcetWholeChunk text chunk cm bounds = .ok n) :
    ∃ k, maxSegment chunk cm (chunkWcetExtra text chunk bounds) 0 0 (y :: ys) = .ok k ∧
      n = Saturating.add u32Max k (externalNativeWcet chunk bounds) := by
  unfold wcetWholeChunk reentrantSegmentedWcet at h
  rw [hb, hy] at h
  obtain ⟨_, -, h⟩ := bind_eq_ok h
  obtain ⟨seg, hseg, h⟩ := bind_eq_ok h
  obtain ⟨k, hk, rfl⟩ := map_eq_ok hseg
  exact ⟨k, hk, (Except.ok.inj h).symm⟩

theorem wcetStreamIteration_ok {s r : ℕ} (hb : chunk.blockType = .stream)
    (hs : chunk.ops.findIdx? (· == .stream) = some s)
    (hr : chunk.ops.findIdx? (· == .reset) = some r)
    (h : wcetStreamIteration text chunk cm bounds = .ok n) :
    ∃ k, wcetRegion chunk cm false (chunkWcetExtra text chunk bounds) (s + 1) r = .ok k ∧
      n = Saturating.add u32Max
        (Saturating.add u32Max ((cm.cycles .stream + cm.cycles .reset) % 2 ^ 32) k)
        (externalNativeWcet chunk bounds) := by
  unfold wcetStreamIteration at h
  rw [hb, hs, hr] at h
  obtain ⟨_, -, h⟩ := bind_eq_ok h
  obtain ⟨k, hk, h⟩ := bind_eq_ok h
  exact ⟨k, hk, (Except.ok.inj h).symm⟩

/-- The greatest segment covers each of them. -/
theorem maxSegment_covers (hseg : Segments chunk.ops start chunk.ops.length ys)
    (h : maxSegment chunk cm extra k start ys = .ok n) :
    k ≤ n ∧ ∀ start', start' = start ∨ (∃ y ∈ ys, start' = y + 1) → ∀ es p,
      Trail chunk.ops start' (es ++ [p]) → p < chunk.ops.length →
      (∀ q ∈ es, q < chunk.ops.length ∧ chunk.ops[q]? ≠ some .yield) →
      KeepsBounds chunk.ops (extractLoopIterationBound chunk) (es ++ [p]) →
      Saturating.Covers u32Max n (weight (priceAt chunk cm extra) (es ++ [p])) := by
  have hmem {es : List ℕ} {p hi : ℕ} (hes : ∀ q ∈ es, q < hi) (hp : p < hi) :
      ∀ q ∈ es ++ [p], q < hi := by
    intro q hq
    rcases List.mem_append.mp hq with hq | hq
    · exact hes q hq
    · exact List.mem_singleton.mp hq ▸ hp
  induction ys generalizing start k with
  | nil =>
    cases hseg with
    | nil hr =>
      obtain ⟨c, hc, h⟩ := bind_eq_ok h
      cases h
      refine ⟨le_max_left _ _, ?_⟩
      rintro start' (rfl | ⟨y, hy, -⟩) es p htrail hp hes hkeeps
      · exact (wcetRegion_covers hr hc htrail (hmem (fun q hq => (hes q hq).1) hp) hkeeps).trans_le
          (le_max_right _ _)
      · cases hy
  | cons y ys ih =>
    cases hseg with
    | cons hy hr hrest =>
      obtain ⟨c, hc, h⟩ := bind_eq_ok h
      obtain ⟨hle, hrec⟩ := ih hrest h
      refine ⟨(le_max_left _ _).trans hle, ?_⟩
      rintro start' hstart es p htrail hp hes hkeeps
      by_cases hfirst : start' = start
      · subst hfirst
        -- the trail ends at the yield, if it comes so far
        have hnot : y ∉ es := fun hmem => (hes y hmem).2 hy
        obtain ⟨hbefore, hlast⟩ := htrail.stays (hr y (.inl rfl)) hnot
        have hp' : p < y + 1 := by
          by_cases hpy : p = y
          · omega
          · have := hlast hpy
            omega
        have hes' : ∀ q ∈ es, q < y + 1 := fun q hq => (hbefore q hq).trans (Nat.lt_succ_self y)
        exact (wcetRegion_covers (hr (y + 1) (.inr rfl)) hc htrail (hmem hes' hp')
          hkeeps).trans_le ((le_max_right _ _).trans hle)
      · refine hrec start' ?_ es p htrail hp hes hkeeps
        rcases hstart with hstart | ⟨y', hy', rfl⟩
        · exact absurd hstart hfirst
        · rcases List.mem_cons.mp hy' with rfl | hy'
          · exact .inl rfl
          · exact .inr ⟨y', hy', rfl⟩

end Bounds

/-! ## Runs -/

/-- The instructions that start an activation anew, by category: an iteration begins at `Stream`, a
resumption at `Yield`. -/
def BlockType.startsAnew : BlockType → Op → Bool
  | .func, _ => false
  | .reentrant, op => op == .yield
  | .stream, op => op == .stream

/-- The markers of a chunk lie in no block: what is between `Stream` and `Reset` is a sequence of
blocks, and the yields of a `yield fn` cut it into such sequences. -/
structure CutsWhole (c : Chunk) : Prop where
  stream : c.blockType = .stream → ∃ s r, c.ops.findIdx? (· == .stream) = some s ∧
    c.ops.findIdx? (· == .reset) = some r ∧ Region Eq c.ops none (s + 1) r
  reentrant : c.blockType = .reentrant → ∃ y ys, topLevelYields 0 0 c.ops = some (y :: ys)

/-- What is charged to every iteration of a `loop fn`. -/
def streamOverhead (cm : CostModel) (c : Chunk) : ℕ :=
  if c.blockType = .stream then cm.cycles .stream + cm.cycles .reset else 0

/-- What a frame has spent that has executed some instructions and stands at another, which counts
unless it is `Reset`, whose price is part of the overhead. -/
def spent (cm : CostModel) (extra : List ℕ) (c : Chunk) (es : List ℕ) (ip : ℕ) : ℕ :=
  streamOverhead cm c +
    weight (priceAt c cm extra) (if c.ops[ip]? = some .reset then es else es ++ [ip])

/-- A frame of a `loop fn` is between `Stream` and `Reset`: what it has executed begins behind
`Stream`. -/
def InIteration (c : Chunk) (es : List ℕ) (ip : ℕ) : Prop :=
  c.blockType = .stream → ∃ s, c.ops.findIdx? (· == .stream) = some s ∧
    (es ++ [ip]).head? = some (s + 1)

section Accepted

variable {text : Chunk → List ℕ} {cm : CostModel} {bounds : List NativeIterationBound} {n : ℕ}
  {c : Chunk} {f : CallFrame} (ha : ChunkAccepted env.module c) (hm : ElseMatched c.ops)
  (hops : env.ops f.chunkIdx = c.ops) (hrec : RecordOk env c.blockType.startsAnew f es)
  (hip : f.ip < c.ops.length)
  (hkeeps : KeepsBounds c.ops (extractLoopIterationBound c) (es ++ [f.ip])) (hlt : n < u32Max)
include ha hm hops hrec hip hkeeps hlt

/-- What a call of a `fn` has spent. -/
theorem func_timing (hb : c.blockType = .func) (hn : wcetWholeChunk text c cm bounds = .ok n) :
    spent cm (chunkWcetExtra text c bounds) c es f.ip + externalNativeWcet c bounds ≤ n := by
  obtain ⟨k, hk, rfl⟩ := wcetWholeChunk_func hb hn
  have hsum := Saturating.add_of_lt hlt
  rw [hsum] at hlt ⊢
  have hnone {s : ℕ} {op : Op} (ho : op = .stream ∨ op = .reset) : c.ops[s]? ≠ some op := by
    intro hs
    have hmem := List.mem_of_getElem? hs
    have hstream := (ha.markers (by rcases ho with rfl | rfl; exacts [.inl hmem, .inr hmem])).1
    cases hb.symm.trans hstream
  have hnested : WellNested c.ops := (checkNesting_region ha.nesting).matched hm
  obtain ⟨start, hbegins, htrail⟩ := hrec.trail
  rw [hops] at hbegins htrail
  have hstart : start = 0 := by
    rcases hbegins with h | ⟨p, op, -, hanew, -⟩ | ⟨s, hs, -⟩
    · exact h
    · rw [hb] at hanew
      cases hanew
    · exact absurd (findIdx?_getElem? hs) (hnone (.inl rfl))
  subst hstart
  have hes : ∀ q ∈ es ++ [f.ip], q < c.ops.length := by
    intro q hq
    rcases List.mem_append.mp hq with hq | hq
    · obtain ⟨op, hop, -⟩ := hrec.goesOn q hq
      rw [hops] at hop
      exact (List.getElem?_eq_some_iff.mp hop).1
    · exact List.mem_singleton.mp hq ▸ hip
  have hweight := (wcetRegion_covers hnested hk htrail hes hkeeps).le (by omega)
  unfold spent streamOverhead
  rw [hb, if_neg (by decide), if_neg (hnone (.inr rfl)), Nat.zero_add]
  exact Nat.add_le_add_right hweight _

/-- What a resumption of a `yield fn` has spent. -/
theorem reentrant_timing (hb : c.blockType = .reentrant) (hcut : CutsWhole c)
    (hn : wcetWholeChunk text c cm bounds = .ok n) :
    spent cm (chunkWcetExtra text c bounds) c es f.ip + externalNativeWcet c bounds ≤ n := by
  obtain ⟨y, ys, hys⟩ := hcut.reentrant hb
  obtain ⟨k, hk, rfl⟩ := wcetWholeChunk_reentrant hb hys hn
  have hsum := Saturating.add_of_lt hlt
  rw [hsum] at hlt ⊢
  have hnone {s : ℕ} {op : Op} (ho : op = .stream ∨ op = .reset) : c.ops[s]? ≠ some op := by
    intro hs
    have hmem := List.mem_of_getElem? hs
    have hstream := (ha.markers (by rcases ho with rfl | rfl; exacts [.inl hmem, .inr hmem])).1
    cases hb.symm.trans hstream
  have hnested : WellNested c.ops := (checkNesting_region ha.nesting).matched hm
  obtain ⟨start, hbegins, htrail⟩ := hrec.trail
  rw [hops] at hbegins htrail
  have hstart : start = 0 ∨ ∃ y' ∈ y :: ys, start = y' + 1 := by
    rcases hbegins with h | ⟨p, op, hop, hanew, hnext⟩ | ⟨s, hs, -⟩
    · exact .inl h
    · rw [hb] at hanew
      obtain rfl : op = .yield := eq_of_beq hanew
      refine .inr ⟨p, ?_, List.mem_singleton.mp hnext⟩
      have hmem := mem_of_topLevelYields hys hop
      rwa [Nat.zero_add] at hmem
    · exact absurd (findIdx?_getElem? hs) (hnone (.inl rfl))
  have hes : ∀ q ∈ es, q < c.ops.length ∧ c.ops[q]? ≠ some .yield := by
    intro q hq
    obtain ⟨op, hop, hanew, -⟩ := hrec.goesOn q hq
    rw [hops] at hop
    refine ⟨(List.getElem?_eq_some_iff.mp hop).1, fun hy => ?_⟩
    rw [hb, Option.some.inj (hop.symm.trans hy)] at hanew
    cases hanew
  have hsegments : Segments c.ops 0 c.ops.length (y :: ys) := Region.segments hnested hys
  have hweight := ((maxSegment_covers hsegments hk).2 start hstart es f.ip htrail hip hes hkeeps).le
    (by omega)
  unfold spent streamOverhead
  rw [hb, if_neg (by decide), if_neg (hnone (.inr rfl)), Nat.zero_add]
  exact Nat.add_le_add_right hweight _

omit ha hm hip in
/-- What an iteration of a `loop fn` has spent. -/
theorem stream_timing (hb : c.blockType = .stream) (hcut : CutsWhole c)
    (hin : InIteration c es f.ip) (hoverhead : cm.cycles .stream + cm.cycles .reset < 2 ^ 32)
    (hn : wcetStreamIteration text c cm bounds = .ok n) :
    spent cm (chunkWcetExtra text c bounds) c es f.ip + externalNativeWcet c bounds ≤ n := by
  obtain ⟨s, r, hs, hr, hregion⟩ := hcut.stream hb
  obtain ⟨k, hk, rfl⟩ := wcetStreamIteration_ok hb hs hr hn
  rw [Nat.mod_eq_of_lt hoverhead] at hlt ⊢
  have hsum := Saturating.add_of_lt hlt
  rw [hsum] at hlt ⊢
  have hlt' : Saturating.add u32Max (cm.cycles .stream + cm.cycles .reset) k < u32Max := by omega
  rw [Saturating.add_of_lt hlt'] at hsum hlt ⊢
  obtain ⟨start, -, htrail⟩ := hrec.trail
  rw [hops] at htrail
  obtain ⟨s', hs', hhead⟩ := hin hb
  obtain rfl : s' = s := Option.some.inj (hs'.symm.trans hs)
  obtain rfl : s' + 1 = start := htrail.start _ hhead
  have hreset := findIdx?_getElem? hr
  have hnot : r ∉ es := by
    intro hmem
    obtain ⟨op, hop, -, hne⟩ := hrec.goesOn r hmem
    rw [hops] at hop
    exact hne (Option.some.inj (hop.symm.trans hreset))
  obtain ⟨hbefore, hlast⟩ := htrail.stays hregion hnot
  have hcounted : Saturating.Covers u32Max k (weight (priceAt c cm (chunkWcetExtra text c bounds))
      (if c.ops[f.ip]? = some .reset then es else es ++ [f.ip])) := by
    split_ifs with hat
    · exact wcetRegion_covers hregion hk htrail.left hbefore
        (hkeeps.segment (List.prefix_append es [f.ip]).isInfix)
    · refine wcetRegion_covers hregion hk htrail (fun q hq => ?_) hkeeps
      rcases List.mem_append.mp hq with hq | hq
      · exact hbefore q hq
      · obtain rfl := List.mem_singleton.mp hq
        exact hlast fun heq => hat (heq ▸ hreset)
  have hweight := hcounted.le (by omega)
  unfold spent streamOverhead
  rw [if_pos hb]
  omega

end Accepted

/-- The bound on execution time holds as long as the counted loops keep to their numbers of
passes. -/
theorem time_bounded_of_keeps (hv : verify env.module = .ok ()) {text : Chunk → List ℕ}
    {cm : CostModel} {bounds : List NativeIterationBound} {idx n : ℕ} {c : Chunk}
    (hc : env.chunk? idx = some c) (hm : ElseMatched c.ops) (hcut : CutsWhole c)
    (hoverhead : cm.cycles .stream + cm.cycles .reset < 2 ^ 32)
    (hn : chunkWcet text bounds cm c = .ok n) (hlt : n < u32Max) {entry : ℕ} {cfg : Config F}
    {logs : List (List ℕ)}
    (h : (executedRecord env c.blockType.startsAnew).Reaches env (fun _ => True) entry cfg logs) :
    ∀ f es, (f, es) ∈ cfg.vm.frames.zip logs → f.chunkIdx = idx → f.ip < c.ops.length →
      InIteration c es f.ip → KeepsBounds c.ops (extractLoopIterationBound c) (es ++ [f.ip]) →
      spent cm (chunkWcetExtra text c bounds) c es f.ip + externalNativeWcet c bounds ≤ n := by
  rintro f es hmem rfl hip hin hkeeps
  have ha := accepted_of_chunk? hv hc
  have hops := ops_of_chunk? hc
  have hrec : RecordOk env c.blockType.startsAnew f es :=
    (List.forall₂_iff_zip.mp (executedRecord_trails h)).2 hmem
  unfold chunkWcet at hn
  cases hb : c.blockType with
  | func =>
    rw [hb] at hn
    exact func_timing ha hm hops hrec hip hkeeps hlt hb hn
  | reentrant =>
    rw [hb] at hn
    exact reentrant_timing ha hm hops hrec hip hkeeps hlt hb hcut hn
  | stream =>
    rw [hb] at hn
    exact stream_timing hops hrec hkeeps hlt hb hcut hin hoverhead hn

/-- **The bound on execution time holds in every run.** At every moment, what a frame has executed in
this call, resumption or iteration costs, with the instruction it stands at and what its external
natives are attested at, no more than the verifier found for its chunk. -/
theorem execution_time_bounded (hv : verify env.module = .ok ()) (hsuited : Suited env)
    {text : Chunk → List ℕ} {cm : CostModel} {bounds : List NativeIterationBound} {idx n : ℕ}
    {c : Chunk} (hc : env.chunk? idx = some c) (hm : ElseMatched c.ops) (hcut : CutsWhole c)
    (hloops : ∀ l t k, c.ops[l]? = some (.loop t) → extractLoopIterationBound c l = some k →
      CompiledLoop c l ∧ LoopWords env c l)
    (hoverhead : cm.cycles .stream + cm.cycles .reset < 2 ^ 32)
    (hn : chunkWcet text bounds cm c = .ok n) (hlt : n < u32Max) {entry : ℕ} {cfg : Config F}
    {logs : List (List ℕ)}
    (h : (executedRecord env c.blockType.startsAnew).Reaches env (HeightStep env) entry cfg logs) :
    ∀ f es, (f, es) ∈ cfg.vm.frames.zip logs → f.chunkIdx = idx → f.ip < c.ops.length →
      InIteration c es f.ip →
      spent cm (chunkWcetExtra text c bounds) c es f.ip + externalNativeWcet c bounds ≤ n := by
  intro f es hmem hidx hip hin
  have hkeeps : KeepsBounds c.ops (extractLoopIterationBound c) (es ++ [f.ip]) := by
    intro l t k hl hk
    obtain ⟨hcomp, hwords⟩ := hloops l t k hl hk
    exact passes_of_bound hv hsuited hc hm hl hk hcomp hwords (fun _ h => h) h hmem hidx
  exact time_bounded_of_keeps hv hc hm hcut hoverhead hn hlt (h.mono fun _ _ => trivial) f es hmem
    hidx hip hin hkeeps

/-- Every instruction costs one cycle. -/
def unitModel : CostModel := ⟨fun _ => 1⟩

/-- A call of `countsToTwo` executes 31 instructions, as many as the verifier has found. -/
theorem countsToTwo_time : ∃ cfg, (executedRecord countingEnv
      countsToTwo.blockType.startsAnew).Reaches countingEnv (HeightStep countingEnv) 0 cfg
        [countsToTwoTrail] ∧
    cfg.vm.frames = [⟨0, 16, 0⟩] ∧
    chunkWcet (fun _ => []) [] unitModel countsToTwo = .ok 31 ∧
    spent unitModel (chunkWcetExtra (fun _ => []) countsToTwo []) countsToTwo countsToTwoTrail 16 +
      externalNativeWcet countsToTwo [] ≤ 31 := by
  have hreach : ∃ cfg, (executedRecord countingEnv countsToTwo.blockType.startsAnew).Reaches
      countingEnv (HeightStep countingEnv) 0 cfg [countsToTwoTrail] ∧
        cfg.vm.frames = [⟨0, 16, 0⟩] :=
    ⟨_, (Monitor.playCall_reaches freshVm_idle (show Monitor.playCall _ _ freshVm 0 []
      (List.replicate 30 none) = some _ from rfl)).mono fun vm _ => countsToTwo_heights vm, rfl⟩
  obtain ⟨cfg, hreach, hframes⟩ := hreach
  have hmem : ((⟨0, 16, 0⟩, countsToTwoTrail) : CallFrame × List ℕ) ∈
      cfg.vm.frames.zip [countsToTwoTrail] := by
    rw [hframes]
    exact List.mem_singleton_self _
  have hloops : ∀ l t k, countsToTwo.ops[l]? = some (.loop t) →
      extractLoopIterationBound countsToTwo l = some k →
      CompiledLoop countsToTwo l ∧ LoopWords countingEnv countsToTwo l := by
    intro l t k hl _
    obtain rfl : l = 4 := by
      rcases l with _ | _ | _ | _ | _ | _ | _ | _ | _ | _ | _ | _ | _ | _ | _ | _ | _ | l
      all_goals first | rfl | cases hl
    exact ⟨countsToTwo_compiled, countsToTwo_words⟩
  have hchunk : countingEnv.chunk? 0 = some countsToTwo := rfl
  exact ⟨cfg, hreach, hframes, rfl, execution_time_bounded countsToTwo_accepted countingEnv_suited
    hchunk countsToTwo_table.matched ⟨by rintro ⟨⟩, by rintro ⟨⟩⟩ hloops (by decide) rfl
    (by decide) hreach _ _ hmem rfl (by decide) (by rintro ⟨⟩)⟩

end Keleusma
