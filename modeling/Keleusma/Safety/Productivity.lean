import Keleusma.Safety.AlwaysYielding
import Keleusma.Verify.Productive

/-!
# Productive streams

The monitor `iterationRecord` says of each frame whether a `Yield` has been executed since it was
entered, and whether one has been since it was last at `Stream` or at `Reset`, by the frame or by one
that it has called. When an accepted `loop fn` comes to its `Reset` it has yielded in this iteration
(`iterations_yield`), in every run in which the chunks that always yield do so before they end. That
is so under the condition `ReturnStep`, and where the walk behind the set goes over every early
`Return` after a yield (`stream_productive`).
-/

namespace Keleusma

variable {F : Type} {env : Env F}

/-! ## The record -/

/-- The record after an instruction, or after running off the end. -/
def iterationAfter : Option Op → List (Bool × Bool) → List (Bool × Bool)
  | some .yield, gs => gs.map fun _ => (true, true)
  | some (.call _ _), gs => (false, false) :: gs
  | some .return, gs | none, gs => gs.tail
  | some .stream, g :: gs | some .reset, g :: gs => (g.1, false) :: gs
  | some _, gs => gs

/-- Whether a `Yield` has been executed since a frame was entered, and since its iteration began. -/
def iterationRecord (env : Env F) : Monitor F (Bool × Bool) where
  enter _ := (false, false)
  exec vm gs :=
    match vm.frames with
    | [] => gs
    | f :: _ => iterationAfter (nextOp env f) gs
  resume _ gs := gs

theorem map_iterationAfter (op : Option Op) (gs : List (Bool × Bool)) :
    (iterationAfter op gs).map Prod.fst = yieldedAfter op (gs.map Prod.fst) := by
  rcases op with _ | op
  · exact List.map_tail.symm ▸ rfl
  · cases op with
    | yield => simp [iterationAfter, yieldedAfter, Function.comp_def]
    | «return» => simp [iterationAfter, yieldedAfter, List.map_tail]
    | stream | reset => cases gs <;> rfl
    | _ => rfl

/-- What the record says since a frame was entered is the record of `yieldRecord`. -/
theorem iterationRecord_entered {ok : Vm F → Prop} {c : ℕ} {cfg : Config F}
    {gs : List (Bool × Bool)} (h : (iterationRecord env).Reaches env ok c cfg gs) :
    (yieldRecord env).Reaches env ok c cfg (gs.map Prod.fst) := by
  induction h with
  | start h => exact .start h
  | @exec vm vm' o gs _ hok hs ih =>
    have hmap : ((iterationRecord env).exec vm gs).map Prod.fst =
        (yieldRecord env).exec vm (gs.map Prod.fst) := by
      unfold iterationRecord yieldRecord
      dsimp only
      cases vm.frames with
      | nil => rfl
      | cons f _ => exact map_iterationAfter _ gs
    rw [hmap]
    exact .exec ih hok hs
  | resume _ shared input hst hs ih => exact .resume ih shared input hst hs

/-! ## The invariant -/

/-- A frame of a `loop fn` that is one iteration is on record as having yielded in it, or waits for a
callee that always yields, or has come silently to its next instruction. -/
def IterationAt (env : Env F) (pending : Prop) (f : CallFrame) (g : Bool × Bool) : Prop :=
  ∀ c, env.chunk? f.chunkIdx = some c → c.blockType = .stream → IterationWhole c →
    Accounted env (· ∈ computeAlwaysYielding env.module) pending f g.2

/-- The callers of a chunk: each has yielded in its iteration when the frame above it has since it
was entered. -/
inductive CallersProductive (env : Env F) :
    ℕ → Bool × Bool → List CallFrame → List (Bool × Bool) → Prop
  | nil {idx g} : CallersProductive env idx g [] []
  | cons {idx g f rest g' gs}
      (hacc : IterationAt env (idx ∈ computeAlwaysYielding env.module) f g')
      (hup : g.1 = true → g'.2 = true) (hrest : CallersProductive env f.chunkIdx g' rest gs) :
      CallersProductive env idx g (f :: rest) (g' :: gs)

/-- The record of the iterations agrees with the control flow. -/
inductive ProductiveInv (env : Env F) : List CallFrame → List (Bool × Bool) → Prop
  | nil {gs} : ProductiveInv env [] gs
  | cons {f rest g gs} (hacc : IterationAt env False f g)
      (hrest : CallersProductive env f.chunkIdx g rest gs) :
      ProductiveInv env (f :: rest) (g :: gs)

/-- After a `Yield` every frame is on record. -/
theorem CallersProductive.yield {idx : ℕ} {g : Bool × Bool} {rest : List CallFrame}
    {gs : List (Bool × Bool)} (h : CallersProductive env idx g rest gs) :
    CallersProductive env idx (true, true) rest (gs.map fun _ => (true, true)) := by
  induction h with
  | nil => exact .nil
  | cons _ _ _ ih => exact .cons (fun _ _ _ _ => .inl rfl) (fun _ => rfl) ih

/-- The callees of a frame do not see what it records since `Stream`. -/
theorem CallersProductive.congr {idx : ℕ} {g g' : Bool × Bool} {rest : List CallFrame}
    {gs : List (Bool × Bool)} (h : CallersProductive env idx g rest gs) (heq : g'.1 = g.1) :
    CallersProductive env idx g' rest gs := by
  cases h with
  | nil => exact .nil
  | cons hacc hup hrest => exact .cons hacc (fun hg => hup (heq ▸ hg)) hrest

/-- The caller of a chunk that has ended. -/
theorem CallersProductive.resumed {idx : ℕ} {g : Bool × Bool} {rest : List CallFrame}
    {gs : List (Bool × Bool)} (h : CallersProductive env idx g rest gs)
    (hends : idx ∈ computeAlwaysYielding env.module → g.1 = true) : ProductiveInv env rest gs := by
  cases h with
  | nil => exact .nil
  | cons hacc hup hrest =>
    refine .cons (fun c hc hs hw => ?_) hrest
    rcases hacc c hc hs hw with hg | hidx | hsilent
    · exact .inl hg
    · exact .inl (hup (hends hidx))
    · exact .inr (.inr hsilent)

/-- The chunk of the innermost frame, if it always yields, has yielded when it ends. -/
def HeadYields (env : Env F) (vm : Vm F) (gs : List (Bool × Bool)) : Prop :=
  ∀ f rest g gs', vm.frames = f :: rest → gs = g :: gs' →
    nextOp env f = some .return ∨ nextOp env f = none →
      f.chunkIdx ∈ computeAlwaysYielding env.module → g.1 = true

section Accepted

variable (hv : verify env.module = .ok ())
include hv

/-- Behind its `Stream` a frame begins an iteration. -/
theorem IterationAt.begins {p : Prop} {f : CallFrame} {g : Bool × Bool} {pos : ℕ}
    (hpos : (env.ops f.chunkIdx)[pos]? = some .stream) :
    IterationAt env p { f with ip := pos + 1 } g := by
  intro c hc hs hw
  have hc : env.chunk? f.chunkIdx = some c := hc
  have hstream := (hw hs).1
  have hops := ops_of_chunk? hc
  rw [hops] at hpos
  obtain rfl := (accepted_of_chunk? hv hc).stream_unique hpos hstream
  refine .inr (.inr ?_)
  show SilentlyReaches (env.ops f.chunkIdx) _ 1
  rw [hops]
  exact .next .refl hstream (List.mem_singleton_self _) id

/-- **A step keeps the record in agreement with the control flow.** -/
theorem ProductiveInv.exec {vm vm' : Vm F} {o : Outcome F} {gs : List (Bool × Bool)}
    (h : ProductiveInv env vm.frames gs) (hends : HeadYields env vm gs)
    (hs : (step env).run vm = .ok (o, vm')) :
    ProductiveInv env vm'.frames ((iterationRecord env).exec vm gs) := by
  have hexec {f : CallFrame} {rest : List CallFrame} (hf : vm.frames = f :: rest) {op : Option Op}
      (hop : (env.ops f.chunkIdx)[f.ip]? = op) :
      (iterationRecord env).exec vm gs = iterationAfter op gs := by
    rw [iterationRecord]
    dsimp only
    rw [hf]
    dsimp only
    rw [nextOp, hop]
  cases step_moved hs with
  | @advance f rest op ip' _ ha hstays =>
    rw [ha.frames] at h
    rw [ha.frames', hexec ha.frames ha.op_at]
    cases h with
    | @cons _ _ g gs' hacc hrest =>
      by_cases hstream : op = .stream
      · subst hstream
        obtain rfl := List.mem_singleton.mp ha.next
        exact .cons (.begins hv ha.op_at) (hrest.congr rfl)
      have hkeep : iterationAfter (some op) (g :: gs') = g :: gs' ∧
          ¬op.Yields (· ∈ computeAlwaysYielding env.module) := by
        cases op <;> first | exact hstays.elim | exact absurd rfl hstream | exact ⟨rfl, id⟩
      rw [hkeep.1]
      exact .cons (fun c hc hs hw => (hacc c hc hs hw).next ha.op_at ha.next fun hy =>
        absurd hy hkeep.2) hrest
  | @reset f rest pos _ hf hop hlen hpos hf' =>
    rw [hf] at h
    rw [hf', hexec hf hop]
    cases h with
    | cons hacc hrest => exact .cons (.begins hv (streamIp_getElem? hpos)) (hrest.congr rfl)
  | @call f rest idx n _ hf hop hidx hn hlc hf' =>
    rw [hf] at h
    rw [hf', hexec hf hop]
    cases h with
    | cons hacc hrest =>
      refine .cons (fun _ _ _ _ => .inr (.inr .refl))
        (.cons (fun c hc hs hw => ?_) (by rintro ⟨⟩) hrest)
      exact (hacc c hc hs hw).next hop (List.mem_singleton_self _) id
  | @returnTo f rest v _ hf hop hv' hne hf' =>
    rw [hf] at h
    rw [hf', hexec hf hop]
    cases h with
    | cons hacc hrest => exact hrest.resumed (hends _ _ _ _ hf rfl (.inl hop))
  | @runOffTo f rest _ hf hop hne hf' =>
    rw [hf] at h
    rw [hf', hexec hf hop]
    cases h with
    | cons hacc hrest => exact hrest.resumed (hends _ _ _ _ hf rfl (.inr hop))
  | @finish f v _ hf hop hf' =>
    rw [hf']
    exact .nil
  | @yield f rest v w _ hf hop hv' hf' =>
    rw [hf] at h
    rw [hf', hexec hf hop]
    cases h with
    | cons hacc hrest => exact .cons (fun _ _ _ _ => .inl rfl) hrest.yield

/-- The record agrees with the control flow in every run in which the chunks that always yield do
so before they end. -/
theorem productiveInv {ok : Vm F → Prop} {c : ℕ} {cfg : Config F} {gs : List (Bool × Bool)}
    (hends : ∀ {vm gs}, (iterationRecord env).Reaches env ok c ⟨vm, .running⟩ gs → ok vm →
      HeadYields env vm gs)
    (h : (iterationRecord env).Reaches env ok c cfg gs) : ProductiveInv env cfg.vm.frames gs := by
  induction h with
  | start h =>
    obtain ⟨vm, shared, args, hidle, hcall, -⟩ := h
    obtain ⟨-, -, -, -, hframes, -, -⟩ := callFunction_ok hidle hcall
    rw [hframes]
    exact .cons (fun _ _ _ _ => .inr (.inr .refl)) .nil
  | exec h hok hs ih => exact ih.exec hv (hends h hok) hs
  | resume _ shared input hst hs ih =>
    rw [(resume_ok hs).frames]
    exact ih

/-- A `loop fn` that is one iteration has yielded in it when it comes to its `Reset`. -/
theorem ProductiveInv.yielded {f : CallFrame} {rest : List CallFrame} {gs : List (Bool × Bool)}
    (h : ProductiveInv env (f :: rest) gs) (hop : nextOp env f = some .reset)
    (hw : ∀ c, env.chunk? f.chunkIdx = some c → IterationWhole c) :
    ∃ g, gs.head? = some g ∧ g.2 = true := by
  cases h with
  | @cons _ _ g _ hacc _ =>
    refine ⟨g, rfl, ?_⟩
    cases hc : env.chunk? f.chunkIdx with
    | none =>
      rw [nextOp, Env.ops, hc] at hop
      cases hop
    | some c =>
      have hops := ops_of_chunk? hc
      rw [nextOp, hops] at hop
      have hacc' := accepted_of_chunk? hv hc
      have hstream := (hacc'.markers (.inr (List.mem_of_getElem? hop))).1
      rcases hacc c hc hstream (hw c hc) with hg | hfalse | hsilent
      · exact hg
      · exact hfalse.elim
      · rw [hops, silentlyReaches_iff] at hsilent
        cases hacc'.iterationYields (hw c hc) hstream _ _ hop hsilent

/-- **Productivity.** When a `loop fn` of an accepted module that is one iteration comes to its
`Reset`, it or a chunk that it has called has executed a `Yield` since it was at `Stream`, or at the
last `Reset`. -/
theorem iterations_yield {c : ℕ} {vm : Vm F} {gs : List (Bool × Bool)}
    (h : (iterationRecord env).Reaches env (ReturnStep env) c ⟨vm, .running⟩ gs) :
    ∀ f rest, vm.frames = f :: rest → nextOp env f = some .reset →
      (∀ c, env.chunk? f.chunkIdx = some c → IterationWhole c) →
      ∃ g, gs.head? = some g ∧ g.2 = true := by
  intro f rest hf hop hw
  have hinv : ProductiveInv env vm.frames gs := by
    refine productiveInv hv (fun h hok => ?_) h
    intro f rest g gs' hf hgs hend hmem
    obtain ⟨hdel, hwalk⟩ := yieldInv hv (iterationRecord_entered h)
    dsimp only at hdel hwalk
    rw [hf, hgs] at hdel hwalk
    exact hdel.ends hv hwalk hmem (hok f rest hf hmem) hend
  exact (hf ▸ hinv).yielded hv hop hw

end Accepted

/-- A `loop fn` that leaves it to a `yield fn` to yield. -/
def delegates : Module := plainModule [
  plainChunk [.stream, .call 1 0, .popN 1, .reset] .stream 0 0,
  plainChunk [.pushImmediate 1, .yield, .return] .reentrant 0 0]

/-- Every state of `delegates` meets the condition. -/
theorem delegates_returns (vm : Vm Unit) : ReturnStep (plainEnv delegates) vm := by
  intro f rest hf hmem
  obtain ⟨idx, ip, base⟩ := f
  have hset : computeAlwaysYielding (plainEnv delegates).module = [0, 1] := rfl
  rw [hset] at hmem
  refine ⟨fun _ => ?_, fun hop hlt => ?_, fun _ => .inr fun pos hpos => ?_⟩
  · rcases List.mem_pair.mp hmem with rfl | rfl
    · rintro p t helse
      rcases p with _ | _ | _ | _ | p <;> cases helse
    · rintro p t helse
      rcases p with _ | _ | _ | p <;> cases helse
  · rcases List.mem_pair.mp hmem with rfl | rfl
    · rcases ip with _ | _ | _ | _ | ip <;> cases hop
    · rcases ip with _ | _ | _ | ip <;> first | exact absurd hlt (lt_irrefl 3) | cases hop
  · rcases List.mem_pair.mp hmem with rfl | rfl
    · obtain rfl : 0 = pos := Option.some.inj hpos
      exact .refl
    · cases hpos

theorem delegates_whole : ∀ c ∈ (plainEnv delegates).module.chunks, IterationWhole c := by
  intro c hc hs
  rcases List.mem_pair.mp hc with rfl | rfl
  · exact ⟨rfl, 3, rfl, .leaf rfl rfl (.leaf rfl rfl .nil)⟩
  · cases hs

/-- When `delegates` comes to its `Reset` the function that it calls has yielded. -/
theorem delegates_yields : ∃ vm gs, (iterationRecord (plainEnv delegates)).Reaches
    (plainEnv delegates) (ReturnStep (plainEnv delegates)) 0 ⟨vm, .running⟩ gs ∧
      vm.frames = [⟨0, 3, 0⟩] ∧ nextOp (plainEnv delegates) ⟨0, 3, 0⟩ = some .reset ∧
      ∃ g, gs.head? = some g ∧ g.2 = true := by
  have hreach : (iterationRecord (plainEnv delegates)).Reaches (plainEnv delegates)
      (fun _ => True) 0 ⟨_, .running⟩ _ :=
    Monitor.playCall_reaches freshVm_idle (show Monitor.playCall _ _ freshVm 0 []
      [none, none, none, none, some .unit, none, none] = some _ from rfl)
  have hstep := hreach.mono fun vm _ => delegates_returns vm
  exact ⟨_, _, hstep, rfl, rfl, iterations_yield rfl hstep _ _ rfl rfl fun c hc =>
    delegates_whole c (List.mem_of_getElem? hc)⟩

/-- **An accepted stream comes to its `Reset` without a yield**: the function that it leaves the
yield to returns early. -/
theorem returnsEarly_unproductive : verify returnsEarly = .ok () ∧
    ∃ vm gs, (iterationRecord (plainEnv returnsEarly)).Reaches (plainEnv returnsEarly)
      (fun _ => True) 0 ⟨vm, .running⟩ gs ∧ vm.frames = [⟨0, 3, 0⟩] ∧
      nextOp (plainEnv returnsEarly) ⟨0, 3, 0⟩ = some .reset ∧ gs = [(false, false)] :=
  ⟨rfl, _, _, Monitor.playCall_reaches freshVm_idle
    (show Monitor.playCall _ _ freshVm 0 [] (List.replicate 7 none) = some _ from rfl), rfl, rfl, rfl⟩

/-! ## A condition on the walk -/

/-- What the walk relies on in a chunk that always yields. -/
structure YieldOk (env : Env F) (f : CallFrame) : Prop where
  /-- At the end of the chunk: each `Else` names the delimiter of its own block. -/
  matched : nextOp env f = some .return ∨ nextOp env f = none → ElseMatched (env.ops f.chunkIdx)
  /-- At the end of the chunk: the walk goes over the early `Return`s after a yield. -/
  early : nextOp env f = some .return ∨ nextOp env f = none →
    EarlyReturnsYield (computeAlwaysYielding env.module) (env.ops f.chunkIdx)
  /-- At `Reset`: control can reach `Stream` before a yield. -/
  reset : nextOp env f = some .reset → ∀ pos, env.streamIp f.chunkIdx = some pos →
    FlowReaches (env.ops f.chunkIdx) (yieldEff (computeAlwaysYielding env.module)) false pos false

/-- The innermost frame meets the condition, if its chunk always yields. -/
def YieldStep (env : Env F) (vm : Vm F) : Prop :=
  ∀ f rest, vm.frames = f :: rest → f.chunkIdx ∈ computeAlwaysYielding env.module → YieldOk env f

section Walk

variable (hv : verify env.module = .ok ())
include hv

/-- The chunks that always yield, on the ways that the walk follows. -/
theorem YieldInv.ends_of_walk {f : CallFrame} {rest : List CallFrame} {g : Bool} {gs : List Bool}
    (h : YieldInv env (· ∈ computeAlwaysYielding env.module) (· ∈ computeAlwaysYielding env.module)
      (f :: rest) (g :: gs))
    (hmem : f.chunkIdx ∈ computeAlwaysYielding env.module) (hok : YieldOk env f)
    (hend : nextOp env f = some .return ∨ nextOp env f = none) : g = true := by
  refine (h.head hmem).resolve_right fun hsilent => ?_
  obtain ⟨c, hc, hcov⟩ := computeAlwaysYielding_justified env.module _ hmem
  have hm := hok.matched hend
  have hearly := hok.early hend
  have hops : env.ops f.chunkIdx = c.ops := ops_of_chunk? hc
  rw [hops] at hm hearly hsilent
  obtain ⟨op, hop, hret⟩ := (accepted_of_chunk? hv hc).covers (P := fun _ => True) hm hcov
    (fun p hp hlt _ => hearly p hp hlt) (silentlyReaches_iff.mp hsilent)
  rw [nextOp, hops, hop] at hend
  rcases hend with hend | hend
  · cases hret (Option.some.inj hend) trivial
  · cases hend

theorem walkInv {c : ℕ} {cfg : Config F} {gs : List Bool}
    (h : (yieldRecord env).Reaches env (YieldStep env) c cfg gs) :
    YieldInv env (· ∈ computeAlwaysYielding env.module) (· ∈ computeAlwaysYielding env.module)
      cfg.vm.frames gs := by
  induction h with
  | start h => exact .start h
  | @exec vm vm' o gs _ hok hs ih =>
    refine ih.exec (fun f rest g gs' hf hgs => ?_) hs
    dsimp only at ih
    rw [hf, hgs] at ih
    exact ⟨fun hmem => ih.ends_of_walk hv hmem (hok f rest hf hmem), fun hmem hop pos hpos =>
      .inr (silentlyReaches_iff.mpr ((hok f rest hf hmem).reset hop pos hpos))⟩
  | resume _ shared input hst hs ih =>
    rw [(resume_ok hs).frames]
    exact ih

/-- **Productivity**, where the walk goes over every early `Return` after a yield. -/
theorem stream_productive (hw : ∀ c ∈ env.module.chunks, IterationWhole c) {c : ℕ} {vm : Vm F}
    {gs : List (Bool × Bool)}
    (h : (iterationRecord env).Reaches env (YieldStep env) c ⟨vm, .running⟩ gs) :
    ∀ f rest, vm.frames = f :: rest → nextOp env f = some .reset →
      ∃ g, gs.head? = some g ∧ g.2 = true := by
  intro f rest hf hop
  have hinv : ProductiveInv env vm.frames gs := by
    refine productiveInv hv (fun h hok => ?_) h
    intro f rest g gs' hf hgs hend hmem
    have hwalk := walkInv hv (iterationRecord_entered h)
    dsimp only at hwalk
    rw [hf, hgs] at hwalk
    exact hwalk.ends_of_walk hv hmem (hok f rest hf hmem) hend
  exact (hf ▸ hinv).yielded hv hop fun c hc => hw c (List.mem_of_getElem? hc)

end Walk

/-- Every state of `delegates` meets this condition, too. -/
theorem delegates_step (vm : Vm Unit) : YieldStep (plainEnv delegates) vm := by
  intro f rest hf hmem
  obtain ⟨idx, ip, base⟩ := f
  have hset : computeAlwaysYielding (plainEnv delegates).module = [0, 1] := rfl
  rw [hset] at hmem
  refine ⟨fun _ => ?_, fun _ => ?_, fun hop pos hpos => ?_⟩
  · rcases List.mem_pair.mp hmem with rfl | rfl
    · rintro p t helse
      rcases p with _ | _ | _ | _ | p <;> cases helse
    · rintro p t helse
      rcases p with _ | _ | _ | p <;> cases helse
  · rw [hset]
    rcases List.mem_pair.mp hmem with rfl | rfl
    · show EarlyReturnsYield [0, 1] ((plainEnv delegates).ops 0)
      decide
    · show EarlyReturnsYield [0, 1] ((plainEnv delegates).ops 1)
      decide
  · rcases List.mem_pair.mp hmem with rfl | rfl
    · obtain rfl : 0 = pos := Option.some.inj hpos
      exact .refl
    · exact absurd (List.mem_of_getElem? hop)
        (show Op.reset ∉ (plainEnv delegates).ops 1 by decide)

/-- When `delegates` comes to its `Reset` the function that it calls has yielded. -/
theorem delegates_productive : ∃ vm gs, (iterationRecord (plainEnv delegates)).Reaches
    (plainEnv delegates) (YieldStep (plainEnv delegates)) 0 ⟨vm, .running⟩ gs ∧
      vm.frames = [⟨0, 3, 0⟩] ∧ nextOp (plainEnv delegates) ⟨0, 3, 0⟩ = some .reset ∧
      ∃ g, gs.head? = some g ∧ g.2 = true := by
  have hreach : (iterationRecord (plainEnv delegates)).Reaches (plainEnv delegates)
      (fun _ => True) 0 ⟨_, .running⟩ _ :=
    Monitor.playCall_reaches freshVm_idle (show Monitor.playCall _ _ freshVm 0 []
      [none, none, none, none, some .unit, none, none] = some _ from rfl)
  have hstep := hreach.mono fun vm _ => delegates_step vm
  exact ⟨_, _, hstep, rfl, rfl, stream_productive rfl delegates_whole hstep _ _ rfl rfl⟩

end Keleusma
