import Keleusma.Safety.Monitor
import Keleusma.Verify.CallOrder

/-!
# The frames of a run

The frames that a run of the machine holds are a chain of calls (`Reaches.callChain`), so the depth
that the verifier finds bounds their number, whatever the arena would grant (`callOrder_spec`).
-/

namespace Keleusma

variable {F : Type} {env : Env F}

/-- The chunks of the frames, innermost first. -/
def frameChunks (frames : List CallFrame) : List ℕ := frames.map (·.chunkIdx)

/-- The frames of a run are a chain of calls. -/
theorem Reaches.callChain {c : ℕ} {cfg : Config F} (h : Reaches env c cfg) :
    CallChain env.module (frameChunks cfg.vm.frames).reverse := by
  have hops (i : ℕ) : env.ops i = env.module.ops i := rfl
  -- the frames may be dropped from the inside, and the innermost may go on
  have htail {f : CallFrame} {rest : List CallFrame}
      (hchain : CallChain env.module (frameChunks (f :: rest)).reverse) :
      CallChain env.module (frameChunks rest).reverse := by
    obtain ⟨hchain, hin⟩ := hchain
    rw [List.isChain_reverse] at hchain
    exact ⟨List.isChain_reverse.mpr hchain.tail, fun i hi =>
      hin i (List.mem_reverse.mpr (List.mem_cons_of_mem _ (List.mem_reverse.mp hi)))⟩
  induction h with
  | start h =>
    obtain ⟨vm, shared, args, hidle, hcall, -⟩ := h
    obtain ⟨chunk, hchunk, -, -, hframes, -⟩ := callFunction_ok hidle hcall
    rw [hframes]
    have hc : c < env.module.chunks.length := (List.getElem?_eq_some_iff.mp hchunk).1
    exact ⟨List.isChain_singleton c, List.forall_mem_singleton.mpr hc⟩
  | next h ht ih =>
    cases ht with
    | resume shared input hst hres => rwa [(resume_ok hres).frames]
    | exec hstep =>
      cases step_moved hstep with
      | advance h =>
        rw [h.frames] at ih
        rwa [h.frames']
      | reset hf hop hlen hpos hf' =>
        rw [hf] at ih
        rwa [hf']
      | @call f rest idx n s' hf hop hidx hn hlc hf' =>
        rw [hf] at ih
        rw [hf']
        obtain ⟨hchain, hin⟩ := ih
        rw [List.isChain_reverse] at hchain
        have hcall : Calls env.module f.chunkIdx idx :=
          ⟨n, List.mem_of_getElem? (hops f.chunkIdx ▸ hop), hidx⟩
        refine ⟨List.isChain_reverse.mpr (List.isChain_cons_cons.mpr ⟨hcall, hchain⟩), ?_⟩
        intro i hi
        rcases List.mem_cons.mp (List.mem_reverse.mp hi) with rfl | hi
        · exact hidx
        · exact hin i (List.mem_reverse.mpr hi)
      | returnTo hf hop hv hrest hf' =>
        rw [hf] at ih
        rw [hf']
        exact htail ih
      | runOffTo hf hop hrest hf' =>
        rw [hf] at ih
        rw [hf']
        exact htail ih
      | finish hf hop hf' =>
        rw [hf']
        exact ⟨List.isChain_nil, List.forall_mem_nil _⟩
      | yield hf hop hv hf' =>
        rw [hf] at ih
        rwa [hf']

/-- **The order of calls.** The search succeeds exactly if no chunk may come to call itself; then
it has every chunk once, behind all that it calls. The depth found from it is the length of the
longest chain of calls, and no run of the machine holds more frames. -/
theorem callOrder_spec (m : Module) (hrange : CallsInRange m) :
    ((topologicalCallOrder m).isOk ↔ Acyclic m) ∧
    (∀ order, topologicalCallOrder m = .ok order →
      order.Perm (List.range m.chunks.length) ∧ PostOrder (Calls m) order) ∧
    ((moduleCallDepth m).isOk ↔ Acyclic m) ∧
    ∀ d, moduleCallDepth m = .ok d →
      IsGreatest {k | ∃ l, CallChain m l ∧ l.length = k} d ∧
      ∀ (F : Type) (env : Env F) (c : ℕ) (cfg : Config F), env.module = m → Reaches env c cfg →
        cfg.vm.frames.length ≤ d := by
  refine ⟨topologicalCallOrder_isOk_iff m, (topologicalCallOrder_spec m).1,
    moduleCallDepth_isOk_iff m, fun d hd => ?_⟩
  have hdepth := moduleCallDepth_isGreatest hrange hd
  refine ⟨hdepth, fun F env c cfg henv h => hdepth.2 ⟨_, henv ▸ h.callChain, ?_⟩⟩
  rw [List.length_reverse, frameChunks, List.length_map]

/-- A module whose first chunk calls its second twice. -/
def callsTwice : Module := plainModule [
  plainChunk [.call 1 0, .popN 1, .call 1 0, .return] .func 0 0,
  plainChunk [.pushImmediate 1, .return] .func 0 0]

theorem callsTwice_inRange : CallsInRange callsTwice := by
  intro c hc callee args hop
  simp only [callsTwice, plainModule, List.mem_cons, List.not_mem_nil, or_false] at hc
  rcases hc with rfl | rfl
  · simp only [plainChunk, List.mem_cons, List.not_mem_nil, or_false] at hop
    rcases hop with hop | hop | hop | hop <;> cases hop <;> exact ⟨by decide, by decide⟩
  · simp only [plainChunk, List.mem_cons, List.not_mem_nil, or_false] at hop
    rcases hop with hop | hop <;> cases hop

/-- Its second chunk comes first in the order, and no run holds more than two frames. -/
theorem callsTwice_depth : CallsInRange callsTwice ∧
    topologicalCallOrder callsTwice = .ok [1, 0] ∧ Acyclic callsTwice ∧
    moduleCallDepth callsTwice = .ok 2 ∧
    ∀ (F : Type) (env : Env F) (c : ℕ) (cfg : Config F), env.module = callsTwice →
      Reaches env c cfg → cfg.vm.frames.length ≤ 2 := by
  obtain ⟨hiff, -, -, hdepth⟩ := callOrder_spec callsTwice callsTwice_inRange
  exact ⟨callsTwice_inRange, by rfl, hiff.mp (by rfl), by rfl, (hdepth 2 (by rfl)).2⟩

end Keleusma
