import Mathlib.Data.List.Forall2
import Keleusma.Safety.Monitor
import Keleusma.Verify.InitSound

/-!
# Definite initialisation along runs

The monitor `writtenMonitor` records, for each frame, the local slots that have been written
since the frame was entered or last reset. In an accepted module a `GetLocal` reads a written
slot, provided that every call passes all parameters of its callee and every `Reset` returns to a
`Stream` that control can reach from the entry of the chunk (`getLocal_reads_written`): pass 1
bounds the number of arguments from above only, and the analysis takes the set after `Stream`
from the control flow that passes through it.

The invariant is that the set the analysis computes before the next instruction of a frame
contains only slots on record.
-/

namespace Keleusma

variable {F : Type} {env : Env F}

/-! ## The record -/

/-- The slots on record after an instruction, or after running off the end: `SetLocal` adds one,
a call enters a frame whose arguments are written, `Reset` clears the frame. -/
def entriesAfter : Option Op → List ℕ → List (List ℕ) → List (List ℕ)
  | some (.setLocal slot), w, ws => (slot :: w) :: ws
  | some (.call _ n), w, ws => List.range n :: w :: ws
  | some .reset, _, ws => [] :: ws
  | some .return, _, ws | none, _, ws => ws
  | _, w, ws => w :: ws

def writtenAfter (env : Env F) (vm : Vm F) (ws : List (List ℕ)) : List (List ℕ) :=
  match vm.frames, ws with
  | f :: _, w :: ws => entriesAfter (nextOp env f) w ws
  | _, _ => ws

theorem writtenAfter_eq {vm : Vm F} {f : CallFrame} {rest : List CallFrame} {w : List ℕ}
    {ws : List (List ℕ)} {o : Option Op} (hf : vm.frames = f :: rest) (hop : nextOp env f = o) :
    writtenAfter env vm (w :: ws) = entriesAfter o w ws := by
  simp only [writtenAfter, hf, hop]

/-- Whether a frame runs a stream, and whether the stream has a parameter. -/
def isStream (env : Env F) (f : CallFrame) : Bool :=
  (env.chunk? f.chunkIdx).any (·.blockType == .stream)

def hasParam (env : Env F) (f : CallFrame) : Bool :=
  (env.chunk? f.chunkIdx).any fun c => decide (0 < c.paramCount)

/-- The slots on record after a resume: the innermost stream frame receives its parameter. -/
def resumeWritten (env : Env F) : List CallFrame → List (List ℕ) → List (List ℕ)
  | f :: frames, w :: ws =>
    if isStream env f then (if hasParam env f then 0 :: w else w) :: ws
    else w :: resumeWritten env frames ws
  | _, ws => ws

/-- The slots written since a frame was entered or reset. -/
def writtenMonitor (env : Env F) : Monitor F (List ℕ) where
  enter chunkIdx := List.range ((env.chunk? chunkIdx).elim 0 (·.paramCount))
  exec := writtenAfter env
  resume vm ws := resumeWritten env vm.frames ws

/-- The next instruction, when it reads a local slot, reads one on record. -/
def ReadsWritten (env : Env F) (vm : Vm F) (ws : List (List ℕ)) : Prop :=
  ∀ f rest slot, vm.frames = f :: rest → nextOp env f = some (.getLocal slot) →
    ∃ w ws', ws = w :: ws' ∧ slot ∈ w

/-! ## The condition -/

/-- The parameters of a chunk that have a local slot. -/
def calleeParams (env : Env F) (idx : ℕ) : ℕ :=
  (env.chunk? idx).elim 0 fun c => min c.paramCount c.localCount

/-- Control can reach the `Stream` of a chunk from its entry. -/
def StreamReached (ops : List Op) : Prop := ∃ pos, ops[pos]? = some .stream ∧ CfgReaches ops pos

/-- A call passes all parameters of its callee, and a `Reset` returns to a `Stream` that control
can reach. -/
def InitStep (env : Env F) (vm : Vm F) : Prop :=
  ∀ f rest, vm.frames = f :: rest →
    (∀ idx n, nextOp env f = some (.call idx n) → calleeParams env idx ≤ n) ∧
    (nextOp env f = some .reset → StreamReached (env.ops f.chunkIdx))

/-! ## The invariant -/

/-- The set of the analysis before the next instruction of a frame contains only slots on
record; so is the parameter of a stream. -/
def FrameInit (env : Env F) (f : CallFrame) (w : List ℕ) : Prop :=
  ∃ chunk sets, env.chunk? f.chunkIdx = some chunk ∧ localAnalysis chunk = some sets ∧
    (f.ip < chunk.ops.length → ∃ B, SetAt sets f.ip B ∧ B ⊆ w) ∧
    (chunk.blockType = .stream → 0 < chunk.paramCount → 0 < chunk.localCount → 0 ∈ w)

/-- The invariant of a run. A stream that waits after `Reset` receives its parameter first. -/
def FramesInit (env : Env F) (cfg : Config F) (ws : List (List ℕ)) : Prop :=
  List.Forall₂ (FrameInit env) cfg.vm.frames
    (if cfg.status = .reset then resumeWritten env cfg.vm.frames ws else ws)

theorem FrameInit.mono {f : CallFrame} {w w' : List ℕ} (h : FrameInit env f w) (hw : w ⊆ w') :
    FrameInit env f w' := by
  obtain ⟨chunk, sets, hc, hs, hB, hp⟩ := h
  refine ⟨chunk, sets, hc, hs, fun hlt => ?_, fun h₁ h₂ h₃ => hw (hp h₁ h₂ h₃)⟩
  obtain ⟨B, hB, hsub⟩ := hB hlt
  exact ⟨B, hB, List.Subset.trans hsub hw⟩

/-- A resume only adds to the record. -/
theorem FrameInit.resumeWritten {frames : List CallFrame} {ws : List (List ℕ)}
    (h : List.Forall₂ (FrameInit env) frames ws) :
    List.Forall₂ (FrameInit env) frames (resumeWritten env frames ws) := by
  induction h with
  | nil => exact .nil
  | @cons f w frames ws hf hrest ih =>
    unfold Keleusma.resumeWritten
    split
    · refine .cons (hf.mono ?_) hrest
      split
      · exact List.subset_cons_self _ _
      · exact List.Subset.refl _
    · exact .cons hf ih

section Accepted

variable (hv : verify env.module = .ok ())
include hv

/-- The invariant holds of a frame that enters a chunk with its parameters written. -/
theorem FrameInit.entry {idx base n : ℕ} {chunk : Chunk} (hc : env.chunk? idx = some chunk)
    (hn : min chunk.paramCount chunk.localCount ≤ n) :
    FrameInit env ⟨idx, 0, base⟩ (List.range n) := by
  obtain ⟨sets, hs, -⟩ := checkLocals_sets (accepted_of_chunk? hv hc).locals
  refine ⟨chunk, sets, hc, hs, fun hlt => ?_, fun _ hp hl => List.mem_range.mpr (by omega)⟩
  obtain ⟨-, B, hB, hsub⟩ := mustAnalysis_closed hs (List.ne_nil_of_length_pos hlt)
  refine ⟨B, hB, fun i hi => ?_⟩
  have hi' := List.mem_range.mp (hsub hi)
  exact List.mem_range.mpr (by omega)

omit hv in
/-- **The invariant follows the control flow of the chunk.** -/
theorem FrameInit.next {f : CallFrame} {w w' : List ℕ} {op : Op} {ip' : ℕ} (h : FrameInit env f w)
    (hop : nextOp env f = some op) (hn : ip' ∈ op.next f.ip) (hww : w ⊆ w')
    (hw : ∀ chunk B, env.chunk? f.chunkIdx = some chunk →
      (chunk.blockType = .stream → 0 < chunk.paramCount → 0 < chunk.localCount → 0 ∈ w) →
      B ⊆ w → localTransfer chunk op B ⊆ w') :
    FrameInit env { f with ip := ip' } w' := by
  obtain ⟨chunk, sets, hc, hs, hB, hp⟩ := h
  have hop' : chunk.ops[f.ip]? = some op := by rwa [nextOp, ops_of_chunk? hc] at hop
  have hlt := (List.getElem?_eq_some_iff.mp hop').1
  obtain ⟨B, hB, hsub⟩ := hB hlt
  refine ⟨chunk, sets, hc, hs, fun hlt' => ?_, fun h₁ h₂ h₃ => hww (hp h₁ h₂ h₃)⟩
  obtain ⟨hclosed, -⟩ := mustAnalysis_closed hs (List.ne_nil_of_length_pos (by omega))
  obtain ⟨B', hB', hsub'⟩ := hclosed f.ip op B hop' hB ip' hn hlt'
  exact ⟨B', hB', List.Subset.trans hsub' (hw chunk B hc hp hsub)⟩

/-- After `Reset` the record holds the parameter once the host has resumed the stream. -/
theorem FrameInit.reset {f : CallFrame} {w : List ℕ} {pos : ℕ} (h : FrameInit env f w)
    (hop : nextOp env f = some .reset) (hr : StreamReached (env.ops f.chunkIdx))
    (hpos : env.streamIp f.chunkIdx = some pos) :
    isStream env f = true ∧
      FrameInit env { f with ip := pos + 1 } (if hasParam env f then [0] else []) := by
  obtain ⟨chunk, sets, hc, hs, -, -⟩ := h
  have hops := ops_of_chunk? hc
  have hacc := accepted_of_chunk? hv hc
  have hreset : .reset ∈ chunk.ops := by
    rw [nextOp, hops] at hop
    exact List.mem_of_getElem? hop
  obtain ⟨hstream, -⟩ := hacc.markers (.inr hreset)
  refine ⟨by simp [isStream, hc, hstream], chunk, sets, hc, hs, fun hlt => ?_,
    fun _ hp _ => by simp [hasParam, hc, hp]⟩
  dsimp only at hlt
  rw [hops] at hr
  obtain ⟨pos', hop', hreach⟩ := hr
  have hpos' : chunk.ops[pos]? = some .stream := hops ▸ streamIp_getElem? hpos
  -- the chunk has one `Stream`, so the one that control reaches is the one `Reset` returns to
  obtain rfl := hacc.stream_unique hop' hpos'
  obtain ⟨B, hB⟩ := hreach.setAt hs (by omega)
  obtain ⟨hclosed, -⟩ := mustAnalysis_closed hs (List.ne_nil_of_length_pos (by omega))
  obtain ⟨B', hB', hsub⟩ := hclosed _ _ B hop' hB (pos' + 1) (List.mem_singleton_self _) hlt
  refine ⟨B', hB', List.Subset.trans hsub ?_⟩
  simp only [localTransfer, hasParam, hc, Option.any_some]
  intro i hi
  split at hi
  next hp => simpa [hp.1] using hi
  · cases hi

/-! ## Steps and runs -/

/-- **A step keeps the invariant.** -/
theorem FramesInit.exec {vm vm' : Vm F} {o : Outcome F} {ws : List (List ℕ)}
    (h : FramesInit env ⟨vm, .running⟩ ws) (hok : InitStep env vm)
    (hs : step env vm = .ok (o, vm')) :
    FramesInit env ⟨vm', o.status⟩ (writtenAfter env vm ws) := by
  have h : List.Forall₂ (FrameInit env) vm.frames ws := h
  cases step_moved hs with
  | @advance f rest op ip' _ ha hstays =>
    rw [ha.frames] at h
    obtain ⟨w, ws', hf, hrest, rfl⟩ := List.forall₂_cons_left_iff.mp h
    have hop : nextOp env f = some op := ha.op_at
    show List.Forall₂ _ vm'.frames (writtenAfter env vm (w :: ws'))
    rw [ha.frames', writtenAfter_eq ha.frames hop]
    cases op with
    | setLocal slot =>
      refine .cons (hf.next hop ha.next (List.subset_cons_self _ _) fun chunk B hc _ hsub => ?_) hrest
      simp only [localTransfer]
      split
      · intro i hi
        rcases List.mem_insert_iff.mp hi with rfl | hi
        · exact List.mem_cons_self
        · exact List.mem_cons_of_mem _ (hsub hi)
      · exact fun i hi => List.mem_cons_of_mem _ (hsub hi)
    | stream =>
      refine .cons (hf.next hop ha.next (List.Subset.refl _) fun chunk B hc hp hsub => ?_) hrest
      have hmem : .stream ∈ chunk.ops := by
        have hop' := ha.op_at
        rw [ops_of_chunk? hc] at hop'
        exact List.mem_of_getElem? hop'
      have hstream := ((accepted_of_chunk? hv hc).markers (.inl hmem)).1
      simp only [localTransfer]
      split
      next h₀ =>
        intro i hi
        obtain rfl := List.mem_singleton.mp hi
        exact hp hstream h₀.1 h₀.2
      · exact List.nil_subset _
    | call idx n => exact hstays.elim
    | reset => exact hstays.elim
    | «return» => exact hstays.elim
    | yield => exact hstays.elim
    | _ => exact .cons (hf.next hop ha.next (List.Subset.refl _) fun _ _ _ _ hsub => hsub) hrest
  | @reset f rest pos _ hf hop hlen hpos hf' hstack hsus hstart =>
    rw [hf] at h
    obtain ⟨w, ws', hfi, hrest, rfl⟩ := List.forall₂_cons_left_iff.mp h
    obtain ⟨hstream, hnext⟩ := hfi.reset hv hop ((hok f rest hf).2 hop) hpos
    show List.Forall₂ _ vm'.frames (resumeWritten env vm'.frames (writtenAfter env vm (w :: ws')))
    have hop' : nextOp env f = some .reset := hop
    rw [hf', writtenAfter_eq hf hop']
    dsimp only [entriesAfter, resumeWritten]
    have hstream' : isStream env { f with ip := pos + 1 } = true := hstream
    rw [if_pos hstream']
    exact .cons hnext hrest
  | @call f rest idx n _ hf hop hidx hn hlc hf' hstack hsus hstart =>
    rw [hf] at h
    obtain ⟨w, ws', hfi, hrest, rfl⟩ := List.forall₂_cons_left_iff.mp h
    have hop' : nextOp env f = some (.call idx n) := hop
    show List.Forall₂ _ vm'.frames (writtenAfter env vm (w :: ws'))
    rw [hf', writtenAfter_eq hf hop']
    obtain ⟨chunk, hc⟩ : ∃ chunk, env.chunk? idx = some chunk :=
      ⟨_, List.getElem?_eq_getElem hidx⟩
    have hargs := (hok f rest hf).1 idx n hop'
    simp only [calleeParams, hc, Option.elim] at hargs
    exact .cons (.entry hv hc hargs)
      (.cons (hfi.next hop' (List.mem_singleton_self _) (List.Subset.refl _)
        fun _ _ _ _ hsub => hsub) hrest)
  | @returnTo f rest v _ hf hop hv' hne hf' hstack hsus hstart =>
    rw [hf] at h
    obtain ⟨w, ws', hfi, hrest, rfl⟩ := List.forall₂_cons_left_iff.mp h
    have hop' : nextOp env f = some .return := hop
    show List.Forall₂ _ vm'.frames (writtenAfter env vm (w :: ws'))
    rw [hf', writtenAfter_eq hf hop']
    exact hrest
  | @runOffTo f rest _ hf hop hne hf' hstack hsus hstart =>
    rw [hf] at h
    obtain ⟨w, ws', hfi, hrest, rfl⟩ := List.forall₂_cons_left_iff.mp h
    have hop' : nextOp env f = none := hop
    show List.Forall₂ _ vm'.frames (writtenAfter env vm (w :: ws'))
    rw [hf', writtenAfter_eq hf hop']
    exact hrest
  | @finish f v _ hf hop hf' =>
    rw [hf] at h
    obtain ⟨w, ws', hfi, hrest, rfl⟩ := List.forall₂_cons_left_iff.mp h
    cases hrest
    show List.Forall₂ _ vm'.frames (writtenAfter env vm [w])
    rcases hop with hop | hop
    · rw [hf', writtenAfter_eq hf (o := some .return) hop]
      exact .nil
    · rw [hf', writtenAfter_eq hf (o := none) hop]
      exact .nil
  | @yield f rest v w₀ _ hf hop hv' hf' hstack hsus hstart =>
    rw [hf] at h
    obtain ⟨w, ws', hfi, hrest, rfl⟩ := List.forall₂_cons_left_iff.mp h
    have hop' : nextOp env f = some .yield := hop
    show List.Forall₂ _ vm'.frames (writtenAfter env vm (w :: ws'))
    rw [hf', writtenAfter_eq hf hop']
    exact .cons (hfi.next hop' (List.mem_singleton_self _) (List.Subset.refl _)
      fun _ _ _ _ hsub => hsub) hrest

omit hv in
/-- A resume keeps the invariant. -/
theorem FramesInit.resume {vm vm' : Vm F} {st : Status} {ws : List (List ℕ)}
    (h : FramesInit env ⟨vm, st⟩ ws) (hst : st = .yielded ∨ st = .reset) (hr : Resumed env vm vm') :
    FramesInit env ⟨vm', .running⟩ (resumeWritten env vm.frames ws) := by
  show List.Forall₂ _ vm'.frames _
  rw [hr.frames]
  rcases hst with rfl | rfl
  · exact FrameInit.resumeWritten h
  · exact h

/-- The invariant holds in every run whose steps meet the condition. -/
theorem written_inv {c : ℕ} {cfg : Config F} {ws : List (List ℕ)}
    (h : (writtenMonitor env).Reaches env (InitStep env) c cfg ws) : FramesInit env cfg ws := by
  induction h with
  | @start cfg hent =>
    obtain ⟨vm, shared, args, hidle, hcall, hst⟩ := hent
    obtain ⟨chunk, hc, -, hle, hframes, -, -⟩ := callFunction_ok hidle hcall
    unfold FramesInit
    rw [hst, if_neg nofun, hframes]
    refine .cons (.entry hv hc ?_) .nil
    simp only [hc, Option.elim]
    exact Nat.min_le_left _ _
  | exec _ hok hs ih => exact ih.exec hv hok hs
  | resume _ shared input hst hs ih => exact ih.resume hst (resume_ok hs)

/-- **In a run whose calls pass all parameters and whose resets return to a reachable `Stream`,
no `GetLocal` reads a slot that has not been written.** -/
theorem getLocal_reads_written {c : ℕ} {cfg : Config F} {ws : List (List ℕ)}
    (h : (writtenMonitor env).Reaches env (InitStep env) c cfg ws)
    (hrun : cfg.status = .running) : ReadsWritten env cfg.vm ws := by
  intro f rest slot hf hop
  have hinv := written_inv hv h
  unfold FramesInit at hinv
  rw [hrun, if_neg nofun, hf] at hinv
  obtain ⟨w, ws', ⟨chunk, sets, hc, hs, hB, -⟩, -, rfl⟩ := List.forall₂_cons_left_iff.mp hinv
  have hop' : chunk.ops[f.ip]? = some (.getLocal slot) := by rwa [nextOp, ops_of_chunk? hc] at hop
  obtain ⟨B, hB, hsub⟩ := hB (List.getElem?_eq_some_iff.mp hop').1
  exact ⟨w, ws', rfl, hsub ((accepted_of_chunk? hv hc).read_mem hs hop' hB)⟩

end Accepted

/-- A module whose calls pass all parameters and whose resets return to reachable `Stream`s meets
the condition in every state. -/
theorem initStep_of_calls (h : ∀ c ∈ env.module.chunks,
    (∀ idx n, Op.call idx n ∈ c.ops → calleeParams env idx ≤ n) ∧
      (Op.reset ∈ c.ops → StreamReached c.ops)) (vm : Vm F) : InitStep env vm := by
  intro f rest _
  cases hc : env.chunk? f.chunkIdx with
  | none =>
    have hop : nextOp env f = none := by simp [nextOp, Env.ops, hc]
    rw [hop]
    exact ⟨fun _ _ hcall => absurd hcall (Option.some_ne_none _).symm,
      fun hreset => absurd hreset (Option.some_ne_none _).symm⟩
  | some c =>
    obtain ⟨hcall, hreset⟩ := h c (List.mem_of_getElem? hc)
    rw [nextOp, ops_of_chunk? hc]
    exact ⟨fun idx n hop => hcall idx n (List.mem_of_getElem? hop),
      fun hop => hreset (List.mem_of_getElem? hop)⟩

/-- A stream that yields in every iteration what a function makes of its input. -/
def echoesEachTick : Module := plainModule [
  plainChunk [.stream, .getLocal 0, .call 1 1, .yield, .popN 1, .reset] .stream 1 1,
  plainChunk [.getLocal 0, .return] .func 1 1]

theorem echoesEachTick_init (vm : Vm Unit) : InitStep (plainEnv echoesEachTick) vm := by
  refine initStep_of_calls (fun c hc => ?_) vm
  rcases List.mem_pair.mp hc with rfl | rfl
  · refine ⟨fun idx n hop => ?_, fun _ => ⟨0, rfl, .entry⟩⟩
    simp only [plainChunk, List.mem_cons, reduceCtorEq, Op.call.injEq, false_or, or_false,
      List.not_mem_nil] at hop
    obtain ⟨rfl, rfl⟩ := hop
    exact le_refl 1
  · exact ⟨fun idx n hop => by simp [plainChunk] at hop, fun hop => by simp [plainChunk] at hop⟩

/-- In the second iteration, behind a `Return`, a `Yield`, a `Reset` and two resumes, the stream and
the function have their parameters on record, and the function reads its own. -/
theorem echoesEachTick_reads_written : verify echoesEachTick = .ok () ∧
    ∃ cfg, (writtenMonitor (plainEnv echoesEachTick)).Reaches (plainEnv echoesEachTick)
      (InitStep (plainEnv echoesEachTick)) 0 cfg [[0], [0]] ∧
      cfg.vm.frames = [⟨1, 0, 1⟩, ⟨0, 3, 0⟩] ∧
      nextOp (plainEnv echoesEachTick) ⟨1, 0, 1⟩ = some (.getLocal 0) ∧
      ReadsWritten (plainEnv echoesEachTick) cfg.vm [[0], [0]] := by
  have hplay : (Monitor.playCall (plainEnv echoesEachTick) (writtenMonitor (plainEnv echoesEachTick))
      freshVm 0 [.int 7] (List.replicate 6 none ++ some .unit :: List.replicate 2 none ++
        some (.int 9) :: List.replicate 2 none)).map
          (fun p => (p.1.vm.frames, p.1.status, p.2)) =
      some ([⟨1, 0, 1⟩, ⟨0, 3, 0⟩], .running, [[0], [0]]) := by decide +kernel
  obtain ⟨⟨cfg, ws⟩, hrun, heq⟩ := Option.map_eq_some_iff.mp hplay
  obtain ⟨hframes, hst, rfl⟩ : cfg.vm.frames = _ ∧ cfg.status = _ ∧ ws = _ := by simpa using heq
  have hreach := (Monitor.playCall_reaches freshVm_idle hrun).mono fun vm _ =>
    echoesEachTick_init vm
  exact ⟨rfl, cfg, hreach, hframes, rfl, getLocal_reads_written rfl hreach hst⟩

/-! ## A call that passes too few arguments -/

/-- A chunk that calls another without its argument. -/
def missingArgument : Module :=
  plainModule [plainChunk [.call 1 0, .return] .func 0 0, plainChunk [.getLocal 0, .return] .func 1 1]

/-- **An accepted module reads a parameter that its caller has not passed.** -/
theorem missingArgument_reads_unwritten : verify missingArgument = .ok () ∧
    ∃ cfg ws, (writtenMonitor (plainEnv missingArgument)).Reaches (plainEnv missingArgument)
      (fun _ => True) 0 cfg ws ∧ cfg.status = .running ∧
      ¬ ReadsWritten (plainEnv missingArgument) cfg.vm ws := by
  refine ⟨rfl, _, _, Monitor.playCall_reaches freshVm_idle
    (show Monitor.playCall _ _ freshVm 0 [] [none] = some _ from rfl), rfl, fun h => ?_⟩
  obtain ⟨w, ws', hw, hmem⟩ := h ⟨1, 0, 0⟩ [⟨0, 1, 0⟩] 0 rfl rfl
  cases hw
  cases hmem

end Keleusma
