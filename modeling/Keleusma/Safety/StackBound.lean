import Keleusma.Runtime.Overflow
import Keleusma.Safety.CallDepth
import Keleusma.Safety.Heights
import Keleusma.Verify.StackReport

/-!
# The operand stack along runs

The bytes that the verifier finds for a chunk are enough for what its frames hold on the operand
stack, with all that is above them (`operand_stack_bounded`): each frame of a run needs no more than
its caller has left (`Nested`). An arena that grants the slots found for the chunk that the host
calls never refuses one.
-/

namespace Keleusma

variable {F : Type} {env : Env F} {slots : ℕ → ℕ} {entry : ℕ} {f g : CallFrame}
  {frames rest : List CallFrame}

/-! ## Frames within frames -/

/-- The frames of a run, innermost first: each needs no more slots than are left of those of its
caller, and the outermost is that of the chunk that the host has called. -/
inductive Nested (slots : ℕ → ℕ) (entry : ℕ) : List CallFrame → Prop
  | nil : Nested slots entry []
  | entered (ip : ℕ) : Nested slots entry [⟨entry, ip, 0⟩]
  | called {g f : CallFrame} {rest : List CallFrame} (h : Nested slots entry (f :: rest))
      (hle : g.base + slots g.chunkIdx ≤ f.base + slots f.chunkIdx) :
      Nested slots entry (g :: f :: rest)

namespace Nested

theorem tail (h : Nested slots entry (f :: rest)) : Nested slots entry rest := by
  cases h with
  | entered => exact .nil
  | called h => exact h

theorem goto (h : Nested slots entry (f :: rest)) (ip : ℕ) :
    Nested slots entry ({ f with ip := ip } :: rest) := by
  cases h with
  | entered => exact .entered ip
  | called h hle => exact .called h hle

/-- What a frame needs is left of what the frames below it need. -/
theorem le (h : Nested slots entry frames) (hf : frames.head? = some f) :
    ∀ g ∈ frames, f.base + slots f.chunkIdx ≤ g.base + slots g.chunkIdx := by
  induction h generalizing f with
  | nil => cases hf
  | entered ip =>
    cases hf
    exact List.forall_mem_singleton.mpr le_rfl
  | called h hle ih =>
    cases hf
    exact List.forall_mem_cons.mpr ⟨le_rfl, fun g hg => hle.trans (ih rfl g hg)⟩

theorem le_entry (h : Nested slots entry frames) (hf : frames.head? = some f) :
    f.base + slots f.chunkIdx ≤ slots entry := by
  induction h generalizing f with
  | nil => cases hf
  | entered ip =>
    cases hf
    exact (Nat.zero_add _).le
  | called h hle ih =>
    cases hf
    exact hle.trans (ih rfl)

theorem exists_entry (h : Nested slots entry frames) (hne : frames ≠ []) :
    ∃ f ∈ frames, f.chunkIdx = entry := by
  induction h with
  | nil => exact absurd rfl hne
  | entered ip => exact ⟨_, List.mem_singleton_self _, rfl⟩
  | called h hle ih =>
    obtain ⟨f, hf, heq⟩ := ih (List.cons_ne_nil _ _)
    exact ⟨f, List.mem_cons_of_mem _ hf, heq⟩

end Nested

/-! ## One step -/

/-- What the bound relies on in a program and the verifier does not check. -/
structure Disciplined (env : Env F) : Prop where
  chunks : ∀ c ∈ env.module.chunks, StackDisciplined c
  /-- An indexed read that reports a bounds outcome reads elements that occupy bytes. -/
  sized : ∀ i, ∀ op ∈ env.ops i, op.Sized env

theorem chunkLocalCount_eq {i : ℕ} {c : Chunk} (hc : env.chunk? i = some c) :
    env.chunkLocalCount i = c.localCount := by
  rw [Env.chunkLocalCount, hc]
  rfl

/-- The report holds where control is. -/
theorem AtHeight.room (hr : StackReport env.module slots) {h : ℕ} (ha : AtHeight env f h) :
    ∃ peak, slots f.chunkIdx = env.chunkLocalCount f.chunkIdx + peak ∧
      ∃ op, nextOp env f = some op ∧ opRequires op ≤ h ∧ h + op.stackGrowth ≤ peak ∧
        ∀ j n, op = .call j n → j < env.module.chunks.length → h - n + slots j ≤ peak := by
  obtain ⟨c, hc, hreach⟩ := ha
  obtain ⟨peak, heq, hpeak⟩ := hr f.chunkIdx c hc
  obtain ⟨op, hop, hrest⟩ := hpeak f.ip h hreach
  exact ⟨peak, by rw [heq, chunkLocalCount_eq hc], op, by rw [nextOp, ops_of_chunk? hc, hop], hrest⟩

/-- In a disciplined program every step meets the condition on the heights. -/
theorem Disciplined.heightStep (hv : verify env.module = .ok ()) (hd : Disciplined env)
    (vm : Vm F) : HeightStep env vm := by
  intro f rest hf
  have hsized : ∀ op, nextOp env f = some op → op.Sized env :=
    fun op hop => hd.sized _ op (List.mem_of_getElem? hop)
  cases hc : env.chunk? f.chunkIdx with
  | none => exact .of_nil (by rw [Env.ops, hc, Option.elim_none])
  | some c =>
    have hops := ops_of_chunk? hc
    have hdc := hd.chunks c (List.mem_of_getElem? hc)
    refine ⟨hops ▸ hdc.matched, hsized, fun hop h hreach => ?_, fun hop => ?_⟩
    · rw [nextOp, hops] at hop
      exact hdc.returns f.ip h hop (hops ▸ hreach)
    · rw [nextOp, hops] at hop
      rw [hops]
      have hstream := ((accepted_of_chunk? hv hc).markers (.inr (List.mem_of_getElem? hop))).1
      exact ⟨0, (hdc.whole hstream).1, .refl⟩

section Report

variable (hr : StackReport env.module slots)
include hr

/-- A frame that waits for a value keeps within its slots, and the value still fits. -/
theorem base_lt_of_waiting {n : ℕ} (h : CallersAt env (f :: rest) n) :
    n < f.base + slots f.chunkIdx := by
  obtain ⟨⟨k, ha, hbase⟩, -⟩ := h
  obtain ⟨peak, hslots, op, -, -, hgrowth, -⟩ := ha.room hr
  unfold operandBase at hbase
  omega

/-- The innermost frame keeps within its slots. -/
theorem stack_le {cfg : Config F} (hinv : HeightInv env cfg) (hf : cfg.vm.frames = f :: rest) :
    cfg.vm.stack.length + (if cfg.status = .yielded then 1 else 0) ≤
      f.base + slots f.chunkIdx := by
  unfold HeightInv StackBy at hinv
  rw [hf] at hinv
  dsimp only at hinv
  split at hinv
  next hy =>
    rw [if_pos hy]
    exact base_lt_of_waiting hr hinv
  next hy =>
    rw [if_neg hy]
    obtain ⟨⟨h, ha, hlen⟩, -⟩ := hinv
    obtain ⟨peak, hslots, op, -, -, hgrowth, -⟩ := ha.room hr
    unfold operandBase at hlen
    omega

/-- **A step keeps the frames within their callers.** -/
theorem Nested.exec {vm vm' : Vm F} {o : Outcome F} (h : Nested slots entry vm.frames)
    (hinv : HeightInv env ⟨vm, .running⟩) (hs : (step env).run vm = .ok (o, vm')) :
    Nested slots entry vm'.frames := by
  cases step_moved hs with
  | advance ha =>
    rw [ha.frames] at h
    rw [ha.frames']
    exact h.goto _
  | @reset f rest pos _ hf hop hlen hpos hf' =>
    rw [hf] at h
    rw [hf']
    exact h.goto _
  | @call f rest idx n _ hf hop hidx hn hlc hf' =>
    rw [hf] at h
    rw [hf']
    refine .called (h.goto _) ?_
    obtain ⟨⟨k, ha, hlen⟩, -⟩ := hinv.running hf
    obtain ⟨peak, hslots, op, hop', hreq, -, hcall⟩ := ha.room hr
    obtain rfl := Option.some.inj (hop.symm.trans hop')
    have hfits := hcall idx n rfl hidx
    rw [opRequires_call] at hreq
    unfold operandBase at hlen
    show vm.stack.length - n + slots idx ≤ f.base + slots f.chunkIdx
    omega
  | returnTo hf hop hv hrest hf' =>
    rw [hf] at h
    rw [hf']
    exact h.tail
  | runOffTo hf hop hrest hf' =>
    rw [hf] at h
    rw [hf']
    exact h.tail
  | finish hf hop hf' =>
    rw [hf']
    exact .nil
  | yield hf hop hv hf' =>
    rw [hf] at h
    rw [hf']
    exact h.goto _

/-- Where a step finds the stack full, the arena refuses a slot of the chunk that the host has
called. -/
theorem step_refused (hd : Disciplined env) {vm : Vm F} (h : Nested slots entry vm.frames)
    (hinv : HeightInv env ⟨vm, .running⟩) (hstep : HeightStep env vm)
    (hs : step env vm = .error operandStackFull) :
    vm.frames ≠ [] ∧ ∃ n < slots entry, env.operandRoom n ≠ true := by
  obtain ⟨f, rest, hf, hop⟩ := step_full hs
  rw [hf] at h
  have hentry : f.base + slots f.chunkIdx ≤ slots entry := h.le_entry rfl
  obtain ⟨⟨k, ha, hlen⟩, -⟩ := hinv.running hf
  obtain ⟨peak, hslots, op, hnext, hreq, hgrowth, hcalls⟩ := ha.room hr
  refine ⟨hf ▸ List.cons_ne_nil f rest, ?_⟩
  rcases hop with hnone | ⟨op', n, hop', hroom, hreturn, hcall, helse⟩
  · cases hnext.symm.trans hnone
  obtain rfl := Option.some.inj (hnext.symm.trans hop')
  refine ⟨n, ?_, hroom⟩
  unfold operandBase at hlen
  by_cases hret : op = .return
  · have hpos := ha.result_pos (hstep f rest hf) (hret ▸ hnext)
    have hn := hreturn hret
    omega
  by_cases hc : ∃ j k, op = .call j k
  · obtain ⟨j, m, rfl⟩ := hc
    obtain ⟨hidx, hle, hn⟩ := hcall j m rfl
    have hfits := hcalls j m rfl hidx
    obtain ⟨top, hcallee, -⟩ := hr j _ (List.getElem?_eq_getElem hidx)
    rw [← chunkLocalCount_eq (List.getElem?_eq_getElem hidx)] at hcallee
    rw [opRequires_call] at hreq
    omega
  · push Not at hc
    have hn := helse hret hc
    rw [(hd.sized _ op (List.mem_of_getElem? hnext)).results_eq] at hn
    have hnet := opNet_eq op
    omega

end Report

/-! ## Runs -/

/-- **In every run of a disciplined program** the heights are accounted for and the frames are
within their callers. -/
theorem Disciplined.nested (hv : verify env.module = .ok ()) (hd : Disciplined env)
    (hr : StackReport env.module slots) {cfg : Config F} (h : Reaches env entry cfg) :
    HeightInv env cfg ∧ Nested slots entry cfg.vm.frames := by
  induction h with
  | start h =>
    refine ⟨StackBy.start (fun hidx => ⟨_, List.getElem?_eq_getElem hidx, .refl⟩) h, ?_⟩
    obtain ⟨vm, shared, args, hidle, hcall, -⟩ := h
    obtain ⟨chunk, hchunk, -, -, hframes, -⟩ := callFunction_ok hidle hcall
    rw [hframes]
    exact .entered 0
  | next h ht ih =>
    obtain ⟨hinv, hnest⟩ := ih
    cases ht with
    | exec hs =>
      have hstep := hd.heightStep hv
      exact ⟨StackBy.exec hinv (fun f rest hf => (hstep _ f rest hf).accounts hv) hs,
        hnest.exec hr hinv hs⟩
    | resume shared input hst hs =>
      exact ⟨StackBy.resume hinv hst h.suspension (resume_ok hs), by rwa [(resume_ok hs).frames]⟩

/-- What the verifier has found for the chunks holds at every moment, for slots of any size with
which it has not gone wrong. -/
theorem Disciplined.stack_bounded (hv : verify env.module = .ok ()) (hd : Disciplined env)
    {text : TextAnalysis} {nativeWcmu : List ℕ} {vsb : ℕ} (hvsb : SlotsCounted env.module vsb)
    {bytes : List (ℕ × ℕ)} (hb : moduleWcmu text env.module nativeWcmu vsb = .ok bytes)
    {cfg : Config F} (h : Reaches env entry cfg) :
    (∀ f ∈ cfg.vm.frames, ∃ b, bytes[f.chunkIdx]? = some b ∧
      (cfg.vm.stack.length - f.base) * vsb ≤ b.1) ∧
    ((∀ b, bytes[entry]? = some b → ∀ n, n * vsb < b.1 → env.operandRoom n = true) →
      (cfg.status = .running → step env cfg.vm ≠ .error operandStackFull) ∧
      (cfg.status = .yielded ∨ cfg.status = .reset → ∀ shared input,
        resume env shared input cfg.vm ≠ .error operandStackFull)) := by
  obtain ⟨slots, hr, hbytes⟩ := moduleWcmu_report hv hd.chunks hvsb hb
  obtain ⟨hinv, hnest⟩ := hd.nested hv hr h
  have hfound : ∀ f ∈ cfg.vm.frames, ∃ b, bytes[f.chunkIdx]? = some b ∧
      b.1 = slots f.chunkIdx * vsb := by
    intro f hf
    have hmem : f.chunkIdx ∈ (frameChunks cfg.vm.frames).reverse :=
      List.mem_reverse.mpr (List.mem_map_of_mem hf)
    have hslots := hbytes f.chunkIdx (h.callChain.2 _ hmem)
    rcases hget : bytes[f.chunkIdx]? with _ | b
    · rw [hget] at hslots
      cases hslots
    · rw [hget] at hslots
      exact ⟨b, rfl, Option.some.inj hslots⟩
  refine ⟨fun g hg => ?_, fun hroom => ?_⟩
  · obtain ⟨b, hb, hslots⟩ := hfound g hg
    refine ⟨b, hb, hslots ▸ Nat.mul_le_mul_right vsb ?_⟩
    cases hf : cfg.vm.frames with
    | nil =>
      rw [hf] at hg
      cases hg
    | cons f rest =>
      have hle := stack_le hr hinv hf
      have hin := hnest.le (congrArg List.head? hf) g hg
      omega
  · -- the slots found for the outermost frame are granted
    have hgranted : cfg.vm.frames ≠ [] → ∀ n < slots entry, env.operandRoom n = true := by
      intro hne n hn
      obtain ⟨f, hf, rfl⟩ := hnest.exists_entry hne
      obtain ⟨b, hb, hslots⟩ := hfound f hf
      exact hroom b hb n (hslots ▸ Nat.mul_lt_mul_of_pos_right hn hvsb.pos)
    obtain ⟨vm, st⟩ := cfg
    refine ⟨?_, ?_⟩
    · rintro rfl hs
      obtain ⟨hne, n, hn, hrefused⟩ :=
        step_refused hr hd hnest hinv (hd.heightStep hv _) hs
      exact hrefused (hgranted hne n hn)
    · intro hst shared input hs
      obtain ⟨hne, n, hn, hrefused⟩ := resume_full hs
      obtain ⟨f, rest, hf⟩ := List.exists_cons_of_ne_nil hne
      have hle : vm.stack.length + (if st = .yielded then 1 else 0) ≤ f.base + slots f.chunkIdx :=
        stack_le hr hinv hf
      have hin := hnest.le_entry (congrArg List.head? hf)
      refine hrefused (hgranted hne n (lt_of_lt_of_le hn (le_trans ?_ (hle.trans hin))))
      rcases hst with rfl | rfl
      · rw [h.suspension.1 rfl]
        exact le_rfl
      · rw [h.suspension.2 rfl]
        exact le_rfl

/-- **The bound on the operand stack holds in every run.** At every moment what is on the stack from
the base of a frame on takes no more bytes than the verifier found for the chunk of the frame. An
arena that grants the slots found for the chunk that the host has called is never found full, by a
step or by a resume. -/
theorem operand_stack_bounded (hv : verify env.module = .ok ()) (hd : Disciplined env)
    {text : TextAnalysis} {nativeWcmu : List ℕ} {vsb : ℕ} (hvsb : 1 < vsb) {bytes : List (ℕ × ℕ)}
    (hb : moduleWcmu text env.module nativeWcmu vsb = .ok bytes) {cfg : Config F}
    (h : Reaches env entry cfg) :
    (∀ f ∈ cfg.vm.frames, ∃ b, bytes[f.chunkIdx]? = some b ∧
      (cfg.vm.stack.length - f.base) * vsb ≤ b.1) ∧
    ((∀ b, bytes[entry]? = some b → ∀ n, n * vsb < b.1 → env.operandRoom n = true) →
      (cfg.status = .running → step env cfg.vm ≠ .error operandStackFull) ∧
      (cfg.status = .yielded ∨ cfg.status = .reset → ∀ shared input,
        resume env shared input cfg.vm ≠ .error operandStackFull)) :=
  hd.stack_bounded hv (.inl hvsb) hb h

/-- **The slots that the verifier reports hold in every run.** At every moment the height of the
stack above the base of a frame is no greater than the slots reported for the chunk of the frame, and
an arena of the slots reported for the chunk that the host has called is never found full. -/
theorem reported_slots_hold (hv : verify env.module = .ok ()) (hd : Disciplined env)
    (hdemand : env.module.stackDemand < 2 ^ 31) {text : TextAnalysis} {nativeWcmu : List ℕ}
    {slots : List (ℕ × ℕ)} (hs : moduleWcmu text env.module nativeWcmu 1 = .ok slots)
    {cfg : Config F} (h : Reaches env entry cfg) :
    (∀ f ∈ cfg.vm.frames, ∃ b, slots[f.chunkIdx]? = some b ∧
      cfg.vm.stack.length - f.base ≤ b.1) ∧
    ((∀ b, slots[entry]? = some b → ∀ n < b.1, env.operandRoom n = true) →
      (cfg.status = .running → step env cfg.vm ≠ .error operandStackFull) ∧
      (cfg.status = .yielded ∨ cfg.status = .reset → ∀ shared input,
        resume env shared input cfg.vm ≠ .error operandStackFull)) := by
  obtain ⟨hbound, hfull⟩ := hd.stack_bounded hv (.inr ⟨rfl, hdemand⟩) hs h
  simp only [Nat.mul_one] at hbound hfull
  exact ⟨hbound, hfull⟩

/-! ## An example -/

/-- A module whose first chunk calls the second with two arguments. -/
def addsByCall : Module := plainModule [
  plainChunk [.pushImmediate 1, .pushImmediate 2, .call 1 2, .return] .func 0 0,
  plainChunk [.getLocal 0, .getLocal 1, .popN 1, .return] .func 2 2]

theorem addsByCall_accepted : verify (plainEnv addsByCall).module = .ok () :=
  verify_of_accepts (by decide +kernel)

/-- A chunk without branches that follows a table of heights is disciplined. -/
theorem FollowsHeights.disciplined {c : Chunk} {table : List ℕ} (h : FollowsHeights c table)
    (hleaves : ∀ op ∈ c.ops, op.isDelimiter = false) (hw : IterationWhole c) :
    StackDisciplined c where
  matched := h.matched
  neutral l t h h' hop := by cases hleaves _ (List.mem_of_getElem? hop)
  whole := hw
  returns ip k := h.height_pos

/-- A program of such chunks is disciplined. -/
theorem disciplined_of_tables
    (h : ∀ c ∈ env.module.chunks, (∃ table, FollowsHeights c table) ∧
      (∀ op ∈ c.ops, op.isDelimiter = false) ∧ IterationWhole c) : Disciplined env where
  chunks c hc := by
    obtain ⟨⟨table, htable⟩, hleaves, hw⟩ := h c hc
    exact htable.disciplined hleaves hw
  sized i op hop := by
    cases hc : env.chunk? i with
    | none =>
      rw [Env.ops, hc] at hop
      cases hop
    | some c =>
      rw [ops_of_chunk? hc] at hop
      obtain ⟨⟨table, htable⟩, -⟩ := h c (List.mem_of_getElem? hc)
      exact .of_plain (htable.plain op hop)

theorem addsByCall_disciplined : Disciplined (plainEnv addsByCall) := by
  refine disciplined_of_tables fun c hc => ?_
  rcases List.mem_pair.mp hc with rfl | rfl
  · exact ⟨⟨[0, 1, 2, 1], by constructor <;> decide⟩, by decide, by rintro ⟨⟩⟩
  · exact ⟨⟨[0, 1, 2, 1], by constructor <;> decide⟩, by decide, by rintro ⟨⟩⟩

/-- Inside the call four slots of 32 bytes are on the stack, as many as the verifier has found. -/
theorem addsByCall_stack : ∃ cfg, Reaches (plainEnv addsByCall) 0 cfg ∧
    cfg.vm.frames = [⟨1, 2, 0⟩, ⟨0, 3, 0⟩] ∧ cfg.vm.stack.length * 32 = 128 ∧
    moduleWcmu (fun _ _ => (0, false)) addsByCall [] 32 = .ok [(128, 0), (128, 0)] ∧
    (∀ f ∈ cfg.vm.frames, ∃ b, [(128, 0), (128, 0)][f.chunkIdx]? = some b ∧
      (cfg.vm.stack.length - f.base) * 32 ≤ b.1) ∧
    step (plainEnv addsByCall) cfg.vm ≠ .error operandStackFull := by
  -- the two arguments are put on the stack, the call is entered, and its two locals are read
  have hreach : ∃ cfg, Reaches (plainEnv addsByCall) 0 cfg ∧
      cfg.vm.frames = [⟨1, 2, 0⟩, ⟨0, 3, 0⟩] ∧ cfg.vm.stack.length = 4 ∧ cfg.status = .running :=
    ⟨_, (Monitor.playCall_reaches freshVm_idle (show Monitor.playCall (plainEnv addsByCall)
      (⟨fun _ => (), fun _ gs => gs, fun _ gs => gs⟩ : Monitor Unit Unit) freshVm 0 []
        (List.replicate 5 none) = some _ from rfl)).reaches, rfl, rfl, rfl⟩
  obtain ⟨cfg, hreach, hframes, hlen, hst⟩ := hreach
  have hbytes : moduleWcmu (fun _ _ => (0, false)) (plainEnv addsByCall).module [] 32 =
    .ok [(128, 0), (128, 0)] := rfl
  obtain ⟨hbound, hfull⟩ := operand_stack_bounded addsByCall_accepted addsByCall_disciplined
    (by decide) hbytes hreach
  exact ⟨cfg, hreach, hframes, by rw [hlen], hbytes, hbound, (hfull fun _ _ _ _ => rfl).1 hst⟩

/-- Counted in slots, too: inside the call four are in use, and one when the callee has returned. -/
theorem addsByCall_slots : ∃ inside after, Reaches (plainEnv addsByCall) 0 inside ∧
    inside.vm.frames = [⟨1, 2, 0⟩, ⟨0, 3, 0⟩] ∧ inside.vm.stack.length = 4 ∧
    Reaches (plainEnv addsByCall) 0 after ∧ after.vm.frames = [⟨0, 3, 0⟩] ∧
    after.vm.stack.length = 1 ∧
    moduleWcmu (fun _ _ => (0, false)) addsByCall [] 1 = .ok [(4, 0), (4, 0)] ∧
    (∀ f ∈ inside.vm.frames, ∃ b, [(4, 0), (4, 0)][f.chunkIdx]? = some b ∧
      inside.vm.stack.length - f.base ≤ b.1) ∧
    ∀ f ∈ after.vm.frames, ∃ b, [(4, 0), (4, 0)][f.chunkIdx]? = some b ∧
      after.vm.stack.length - f.base ≤ b.1 := by
  have hplay (n : ℕ) (cfg : Config Unit) (h : (Monitor.playCall (plainEnv addsByCall)
      (⟨fun _ => (), fun _ gs => gs, fun _ gs => gs⟩ : Monitor Unit Unit) freshVm 0 []
        (List.replicate n none)).map Prod.fst = some cfg) : Reaches (plainEnv addsByCall) 0 cfg := by
    obtain ⟨⟨cfg', gs⟩, hplay, rfl⟩ := Option.map_eq_some_iff.mp h
    exact (Monitor.playCall_reaches freshVm_idle hplay).reaches
  have hslots : moduleWcmu (fun _ _ => (0, false)) (plainEnv addsByCall).module [] 1 =
    .ok [(4, 0), (4, 0)] := rfl
  have hinside := hplay 5 _ rfl
  have hafter := hplay 7 _ rfl
  refine ⟨_, _, hinside, rfl, rfl, hafter, rfl, rfl, hslots, ?_, ?_⟩
  · exact (reported_slots_hold addsByCall_accepted addsByCall_disciplined (by decide) hslots
      hinside).1
  · exact (reported_slots_hold addsByCall_accepted addsByCall_disciplined (by decide) hslots
      hafter).1

/-- A module whose first loop is left with an operand more than it is entered with. -/
def leavesAnOperand : Module := plainModule [plainChunk
  [.loop 4, .pushImmediate 1, .break 4, .endLoop 1, .pushImmediate 1, .popN 1, .return] .func 0 0]

/-- **The walk forgets what a break leaves on the stack**: one slot is reported, and two operands are
on the stack behind the loop. -/
theorem leavesAnOperand_overflows : verify leavesAnOperand = .ok () ∧
    moduleWcmu (fun _ _ => (0, false)) leavesAnOperand [] 1 = .ok [(1, 0)] ∧
    ∃ cfg, Reaches (plainEnv leavesAnOperand) 0 cfg ∧ cfg.vm.frames = [⟨0, 5, 0⟩] ∧
      cfg.vm.stack.length = 2 :=
  ⟨verify_of_accepts (by decide +kernel), rfl, _, (Monitor.playCall_reaches freshVm_idle
    (show Monitor.playCall (plainEnv leavesAnOperand)
      (⟨fun _ => (), fun _ gs => gs, fun _ gs => gs⟩ : Monitor Unit Unit) freshVm 0 []
        (List.replicate 4 none) = some _ from rfl)).reaches, rfl, rfl⟩

end Keleusma
