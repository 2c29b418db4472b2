import Keleusma.Safety.ForRange

/-!
# Passes of counted loops

In every run whose steps meet `HeightStep` and enter a loop within the words that the verifier takes
it to begin with, the record of every frame keeps the bound that the verifier reads off the loop
(`back_edges_bounded`). So it does for the loops that the compiler emits (`counted_loop_passes`). The
invariant speaks of all frames at once: a frame that waits for its callee, or for the host, stands in
its loops as it left them.
-/

namespace Keleusma

variable {F : Type} {env : Env F} {f : CallFrame} {rest : List CallFrame} {op : Op} {ip' n : ℕ}
  {stack stack' : List (Value F)} {A : CallFrame → ℕ → Prop} {anew : Op → Bool}

/-! ## The stack below a frame -/

theorem SameBelow.getElem? {V : Type} {old new : List V} {i : ℕ} (h : SameBelow n old new)
    (hi : i < n) : new[i]? = old[i]? := by
  have hat : (new.take n)[i]? = (old.take n)[i]? := congrArg (fun l : List V => l[i]?) h
  rwa [List.getElem?_take_of_lt hi, List.getElem?_take_of_lt hi] at hat

/-- An instruction leaves the locals that it does not set. -/
theorem LocalsKept.slot (h : LocalsKept env f op stack stack') (hreset : op ≠ .reset)
    (hreturn : op ≠ .return) {s : ℕ} (hs : s < env.chunkLocalCount f.chunkIdx)
    (hset : op ≠ .setLocal s) : stack'[f.base + s]? = stack[f.base + s]? := by
  have hlt : f.base + s < operandBase env f := Nat.add_lt_add_left hs _
  cases op with
  | setLocal slot =>
    refine h.2 _ hlt fun heq => hset ?_
    rw [Nat.add_left_cancel heq]
  | reset => exact absurd rfl hreset
  | «return» => exact absurd rfl hreturn
  | _ => exact SameBelow.getElem? h hlt

/-- An instruction leaves what lies below its frame. -/
theorem LocalsKept.below (h : LocalsKept env f op stack stack') {i : ℕ} (hi : i < f.base) :
    stack'[i]? = stack[i]? := by
  have hlt : i < operandBase env f := hi.trans_le (Nat.le_add_right _ _)
  cases op with
  | setLocal slot => exact h.2 _ hlt (by omega)
  | reset | «return» => exact SameBelow.getElem? h hi
  | _ => exact SameBelow.getElem? h hlt

/-- The callers of a frame lie below it. -/
theorem WaitingBy.below {frames : List CallFrame} {base : ℕ} (h : WaitingBy env A frames base) :
    ∀ g ∈ frames, operandBase env g ≤ base := by
  induction frames generalizing base with
  | nil => exact List.forall_mem_nil _
  | cons g frames ih =>
    obtain ⟨⟨k, -, rfl⟩, hrest⟩ := h
    intro g' hg'
    rcases List.mem_cons.mp hg' with rfl | hg'
    · exact Nat.le_add_right _ _
    · exact (ih hrest g' hg').trans
        ((Nat.le_add_right _ _).trans (Nat.le_add_right _ _))

/-- The frames of a call stack lie apart. -/
theorem WaitingBy.apart {frames : List CallFrame} {base : ℕ} (h : WaitingBy env A frames base) :
    frames.Pairwise fun g g' => operandBase env g' ≤ g.base := by
  induction frames generalizing base with
  | nil => exact .nil
  | cons g frames ih =>
    obtain ⟨-, hrest⟩ := h
    exact .cons hrest.below (ih hrest)

theorem StackBy.apart {cfg : Config F} (h : StackBy env A cfg) :
    cfg.vm.frames.Pairwise fun g g' => operandBase env g' ≤ g.base := by
  unfold StackBy at h
  cases hf : cfg.vm.frames with
  | nil => exact .nil
  | cons f rest =>
    rw [hf] at h
    dsimp only at h
    split at h
    · exact WaitingBy.apart h
    · exact .cons h.2.below h.2.apart

/-- The frame whose parameter a resume writes is on the call stack, and has a parameter. -/
theorem paramFrame_mem {frames : List CallFrame} {g : CallFrame}
    (h : paramFrame env frames = some g) :
    g ∈ frames ∧ ∃ c, env.chunk? g.chunkIdx = some c ∧ 0 < c.paramCount := by
  obtain ⟨hres, hany⟩ := Option.filter_eq_some_iff.mp h
  refine ⟨?_, ?_⟩
  · unfold resumeFrame at hres
    split at hres
    next f' hfind =>
      cases hres
      exact List.mem_of_find?_eq_some hfind
    next => exact List.mem_of_getLast? hres
  · obtain ⟨c, hc, hcond⟩ := (Option.any_eq_true _ _).mp hany
    rw [Bool.and_eq_true, decide_eq_true_eq] at hcond
    exact ⟨c, hc, hcond.2⟩

/-- A resume of the host leaves the locals that are no parameters. -/
theorem Resumed.slot {vm vm' : Vm F} (h : Resumed env vm vm')
    (hapart : vm.frames.Pairwise fun g g' => operandBase env g' ≤ g.base)
    (hparams : ∀ c ∈ env.module.chunks, c.paramCount ≤ c.localCount) {c : Chunk}
    (hf : f ∈ vm.frames) (hc : env.chunk? f.chunkIdx = some c) {s : ℕ} (hs : s < c.localCount)
    (hparam : 0 < c.paramCount → s ≠ 0) {v : Value F} (hv : vm.stack[f.base + s]? = some v) :
    vm'.stack[f.base + s]? = some v := by
  have hcount {g : CallFrame} {c : Chunk} (hc : env.chunk? g.chunkIdx = some c) :
      operandBase env g = g.base + c.localCount := by
    rw [operandBase, Env.chunkLocalCount, hc]
    rfl
  have hsymm : Std.Symm fun g g' : CallFrame =>
      operandBase env g' ≤ g.base ∨ operandBase env g ≤ g'.base := ⟨fun _ _ h => h.symm⟩
  have hboth : vm.frames.Pairwise fun g g' =>
      operandBase env g' ≤ g.base ∨ operandBase env g ≤ g'.base := hapart.imp fun h => .inl h
  obtain ⟨x, w, hstack⟩ := h.stack
  rw [hstack]
  refine getElem?_append_of_some ?_
  cases hp : paramFrame env vm.frames with
  | none => exact hv
  | some g =>
    obtain ⟨hg, c', hc', hpos⟩ := paramFrame_mem hp
    have hle := hparams c' (List.mem_of_getElem? hc')
    have hne : g.base ≠ f.base + s := by
      by_cases hgf : g = f
      · subst hgf
        cases hc.symm.trans hc'
        have hs := hparam hpos
        omega
      · have hbelow := hboth.forall hg hf hgf
        rw [hcount hc, hcount hc'] at hbelow
        omega
    dsimp only
    rw [List.getElem?_set_ne hne]
    exact hv

/-! ## The step -/

section Step

variable {vm vm' : Vm F} {o : Outcome F}

/-- What a step does to the locals of its frame, where it goes to a position that the instruction
names. -/
theorem stepsTo_of_step (hkept : LocalsKept env f op vm.stack vm'.stack) (hf : vm.frames = f :: rest)
    (hop : (env.ops f.chunkIdx)[f.ip]? = some op) (hn : ip' ∈ op.next f.ip)
    (hs : (step env).run vm = .ok (o, vm')) (hframes : ∀ t, op = .breakIf t →
      vm'.frames = { f with ip := ip' } :: rest) : StepsTo env f op ip' vm.stack vm'.stack where
  op_at := hop
  next := hn
  keeps s hs hset := by
    refine hkept.slot ?_ ?_ hs hset
    · rintro rfl
      cases hn
    · rintro rfl
      cases hn
  sets s hset := by
    subst hset
    have hplain : (Op.setLocal s).Plain := trivial
    have hexec := step_op hf hop hs
    rw [execInstr_plain hplain] at hexec
    obtain ⟨_, s₁, hexec, hr⟩ := bind_ok hexec
    cases hr
    exact execOp_quick (s := vm.goto f rest (f.ip + 1)) rfl hexec
  breaks t hbreak hne := by
    subst hbreak
    obtain ⟨x, s₁, hpop, hr⟩ := bind_ok (step_op hf hop hs)
    obtain ⟨hx, rfl⟩ := popBool_ok hpop
    cases x with
    | false => exact hx
    | true =>
      cases hr
      have hip := congrArg CallFrame.ip (List.cons.inj (hframes t rfl)).1
      exact absurd hip.symm hne

end Step

/-! ## The invariant -/

/-- The host runs a module that it is made for: its words are as wide as the module asks for, and
every chunk has locals for its parameters. -/
structure Hosted (env : Env F) : Prop where
  narrow : env.module.wordBitsLog2 ≤ env.runtimeBitsLog2
  wide : env.runtimeBitsLog2 ≤ 6
  params : ∀ c ∈ env.module.chunks, c.paramCount ≤ c.localCount

/-- Control comes to a loop of a chunk with the words that the verifier takes it to begin with. -/
def EntersLoop (env : Env F) (idx l : ℕ) (vm : Vm F) : Prop :=
  ∀ f rest c, vm.frames = f :: rest → f.chunkIdx = idx → env.chunk? idx = some c → f.ip = l →
    EntersWithin env c l f.base vm.stack

section Invariant

variable {idx l e var limit : ℕ} {a b s : ℤ} {es : List ℕ} {logs : List (List ℕ)}

/-- A frame of the chunk keeps the bound of the loop. -/
def FrameBounded (env : Env F) (idx l e var limit : ℕ) (a b s : ℤ) (stack : List (Value F))
    (f : CallFrame) (es : List ℕ) : Prop :=
  f.chunkIdx = idx → Bounded env l e var limit a b s f.base es f.ip stack

/-- Frames whose locals stay as they are. -/
theorem frames_kept {frames : List CallFrame}
    (h : List.Forall₂ (FrameBounded env idx l e var limit a b s stack) frames logs)
    (hkept : ∀ f ∈ frames, f.chunkIdx = idx → ∀ slot, slot = var ∨ slot = limit → ∀ v,
      stack[f.base + slot]? = some v → stack'[f.base + slot]? = some v) :
    List.Forall₂ (FrameBounded env idx l e var limit a b s stack') frames logs := by
  induction h with
  | nil => exact .nil
  | cons hf hrest ih =>
    refine .cons (fun hidx => ?_) (ih fun g hg => hkept g (List.mem_cons_of_mem _ hg))
    have hlocals := hkept _ List.mem_cons_self hidx
    exact (hf hidx).congr (hlocals var (.inl rfl)) (hlocals limit (.inr rfl))

theorem Bounded.of_suffix {base ip : ℕ} {fs : List ℕ}
    (h : Bounded env l e var limit a b s base es ip stack) (hs : fs <:+ es) :
    Bounded env l e var limit a b s base fs ip stack where
  passes := h.passes.of_suffix (List.suffix_append_self_iff.mpr hs)
  turns := h.turns.of_suffix (List.suffix_append_self_iff.mpr hs)
  inLoop hlo hhi := by
    obtain ⟨w, k, v, hfits, hk⟩ := h.inLoop hlo hhi
    have hsuffix : fs ++ [ip] <:+ es ++ [ip] := List.suffix_append_self_iff.mpr hs
    refine ⟨w, k, v, hfits, hk.since.of_suffix hsuffix, hk.limit_eq, hk.var_eq, hk.word,
      fun hin => ?_, fun hout => (hk.turn hout).imp_left (·.of_suffix hsuffix)⟩
    obtain ⟨j, hj, hturned, hrest⟩ := hk.body hin
    exact ⟨j, hj, hturned.of_suffix hsuffix, hrest⟩

/-- A frame that begins its record outside of the loop. -/
theorem Bounded.outside {base ip : ℕ} (hip : ip ≤ l ∨ e + 5 < ip) (hroom : l + loopHeader ≤ e) :
    Bounded env l e var limit a b s base [] ip stack where
  passes := AtMost.nil.elsewhere (by unfold loopHeader at *; omega)
  turns := AtMost.nil.elsewhere (by omega)
  inLoop hlo hhi := by omega

variable {c : Chunk} (hv : verify env.module = .ok ()) (hr : ForRange c l e var limit s)
  (hc : env.chunk? idx = some c) (hw : WellNested c.ops) (hhost : Hosted env)
  (hapart : LoopApart c l) (htrace : traceConstSetLocal c l var = some a)
  (htrace' : traceConstSetLocal c l limit = some b)
include hv hr hc hw hhost hapart htrace htrace'

/-- **Every frame of a run keeps the bound of the loop.** -/
theorem frames_bounded {ok : Vm F → Prop} (hok : ∀ vm, ok vm → HeightStep env vm)
    (henter : ∀ vm, ok vm → EntersLoop env idx l vm) {entry : ℕ} {cfg : Config F}
    (h : (executedRecord env anew).Reaches env ok entry cfg logs) :
    List.Forall₂ (FrameBounded env idx l e var limit a b s cfg.vm.stack) cfg.vm.frames logs := by
  have hslots (slot : ℕ) (hs : slot = var ∨ slot = limit) :
      (0 < c.paramCount → slot ≠ 0) ∧ slot < c.localCount := by
    have ha := accepted_of_chunk? hv hc
    rcases hs with rfl | rfl
    · exact ⟨hapart.locals slot (.inl hr.readsVar), ha.slot_lt hr.readsVar (.inl rfl)⟩
    · exact ⟨hapart.locals slot (.inr hr.readsLimit), ha.slot_lt hr.readsLimit (.inl rfl)⟩
  have hcount {f : CallFrame} (hidx : f.chunkIdx = idx) :
      env.chunkLocalCount f.chunkIdx = c.localCount := by
    rw [hidx, Env.chunkLocalCount, hc]
    rfl
  have hzero (g : CallFrame) (hg : g.ip = 0) (st : List (Value F)) :
      FrameBounded env idx l e var limit a b s st g [] := fun _ => by
    rw [hg]
    exact .outside (.inl (Nat.zero_le l)) hr.room
  induction h with
  | start h =>
    obtain ⟨vm, shared, args, hidle, hcall, -⟩ := h
    obtain ⟨-, -, -, -, hframes, -, -⟩ := callFunction_ok hidle hcall
    rw [hframes]
    exact .cons (hzero _ rfl _) .nil
  | @resume vm vm' st logs hr shared input hst hs ih =>
    have hres := resume_ok hs
    rw [hres.frames]
    refine frames_kept ih fun f hf hidx slot hs v hval => ?_
    obtain ⟨hparam, hlt⟩ := hslots slot hs
    exact hres.slot (height_inv hv hok hr).apart hhost.params hf (hidx ▸ hc) hlt hparam hval
  | @exec vm vm' o logs hreach hstep hs ih =>
    have hinv := height_inv hv hok hreach
    have hstraight := straight_run hv hok hreach
    -- the callers of the innermost frame keep their locals
    have hbelow {f : CallFrame} {rest : List CallFrame} {op : Op} {logs : List (List ℕ)}
        (hf : vm.frames = f :: rest) (hop : nextOp env f = some op)
        (hrest : List.Forall₂ (FrameBounded env idx l e var limit a b s vm.stack) rest logs) :
        List.Forall₂ (FrameBounded env idx l e var limit a b s vm'.stack) rest logs := by
      refine frames_kept hrest fun g hg hidx slot hs' v hval => ?_
      have hle := (hinv.running hf).2.below g hg
      rw [operandBase, hcount hidx] at hle
      have hlt := (hslots slot hs').2
      rw [(hinv.localsKept hv (hok vm hstep) hf hop hs).below (by omega)]
      exact hval
    -- the innermost frame goes on at a position that its instruction names
    have hmoves {f : CallFrame} {rest : List CallFrame} {op : Op} {es : List ℕ} {ip' : ℕ}
        (hf : vm.frames = f :: rest) (hop : (env.ops f.chunkIdx)[f.ip]? = some op)
        (hn : ip' ∈ op.next f.ip)
        (hframes : ∀ t, op = .breakIf t → vm'.frames = { f with ip := ip' } :: rest)
        (h : FrameBounded env idx l e var limit a b s vm.stack f es) :
        FrameBounded env idx l e var limit a b s vm'.stack { f with ip := ip' }
          (extended anew f.ip op es) := by
      intro hidx
      have hkept := hinv.localsKept hv (hok vm hstep) hf hop hs
      have hidx' : f.chunkIdx = idx := hidx
      exact ((h hidx').step hr (hidx' ▸ hc) hw hhost.narrow hhost.wide htrace htrace'
        (hslots var (.inl rfl)).2 (hslots limit (.inr rfl)).2
        (henter vm hstep f rest c hf hidx' hc) (stepsTo_of_step hkept hf hop hn hs hframes)
        (hstraight.running hf).1).of_suffix (extended_suffix f.ip op es)
    cases step_moved hs with
    | @advance f rest op ip' _ ha hstays =>
      rw [ha.frames] at ih
      rw [ha.frames', executedRecord_exec ha.frames ha.op_at]
      cases ih with
      | cons hf hrest =>
        rw [executedAfter_stays hstays]
        exact .cons (hmoves ha.frames ha.op_at ha.next (fun _ _ => ha.frames') hf)
          (hbelow ha.frames ha.op_at hrest)
    | @reset f rest pos _ hf hop hlen hpos hf' =>
      rw [hf] at ih
      rw [hf', executedRecord_exec hf hop]
      cases ih with
      | @cons _ es _ logs _ hrest =>
        rw [show executedAfter anew f.ip (some .reset) (es :: logs) =
          extended anew f.ip .reset es :: logs from rfl, extended_reset]
        refine .cons (fun hidx => ?_) (hbelow hf hop hrest)
        have hstream := streamIp_getElem? hpos
        have hidx' : f.chunkIdx = idx := hidx
        rw [hidx', ops_of_chunk? hc] at hstream
        exact .outside (hr.stream_outside hapart hstream) hr.room
    | @call f rest idx' n _ hf hop hidx hn hlc hf' =>
      rw [hf] at ih
      rw [hf', executedRecord_exec hf hop]
      cases ih with
      | cons hrec hrest =>
        exact .cons (hzero _ rfl _) (.cons (hmoves hf hop (List.mem_singleton_self _)
          (by rintro _ ⟨⟩) hrec) (hbelow hf hop hrest))
    | @returnTo f rest v _ hf hop hv' hne hf' =>
      rw [hf] at ih
      rw [hf', executedRecord_exec hf hop]
      cases ih with
      | cons _ hrest => exact hbelow hf hop hrest
    | @runOffTo f rest _ hf hop hne hf' =>
      obtain ⟨⟨k, hk, -⟩, -⟩ := hinv.running hf
      obtain ⟨op', hop', -⟩ := hk.instr hv (hok vm hstep f _ hf).matched
      cases hop.symm.trans hop'
    | @finish f v _ hf hop hf' =>
      rw [hf] at ih
      rw [hf']
      cases ih with
      | cons _ hrest =>
        cases hrest
        rcases hop with hop | hop <;> (rw [executedRecord_exec hf hop]; exact .nil)
    | @yield f rest v w _ hf hop hv' hf' =>
      rw [hf] at ih
      rw [hf', executedRecord_exec hf hop]
      cases ih with
      | cons hrec hrest =>
        exact .cons (hmoves hf hop (List.mem_singleton_self _) (by rintro _ ⟨⟩) hrec)
          (hbelow hf hop hrest)

end Invariant

/-! ## The turns of a loop -/

/-- The records of a run keep the bound of a loop that it enters within the words that the verifier
takes the loop to begin with: for the passes of the test, and for the turns at the end of the body. -/
theorem bounds_kept (hv : verify env.module = .ok ()) (hhost : Hosted env) {idx l t : ℕ}
    {c : Chunk} (hc : env.chunk? idx = some c) (hm : ElseMatched c.ops)
    (hloop : c.ops[l]? = some (.loop t)) (hn : extractLoopIterationBound c l = some n)
    (hapart : LoopApart c l) {ok : Vm F → Prop} (hok : ∀ vm, ok vm → HeightStep env vm)
    (henter : ∀ vm, ok vm → EntersLoop env idx l vm) {entry : ℕ} {cfg : Config F}
    {logs : List (List ℕ)} (h : (executedRecord env anew).Reaches env ok entry cfg logs)
    {es : List ℕ} (hmem : (f, es) ∈ cfg.vm.frames.zip logs) (hidx : f.chunkIdx = idx) :
    AtMost l (l + loopHeader) n (es ++ [f.ip]) ∧ AtMost l (t - 1) n (es ++ [f.ip]) := by
  have hw : WellNested c.ops := (checkNesting_region (accepted_of_chunk? hv hc).nesting).matched hm
  obtain ⟨e', -, rfl, -⟩ := (hw.loopsIn (List.getElem?_eq_some_iff.mp hloop).1).opens _ hloop
  obtain ⟨e, var, limit, s, a, b, rfl, hr, ha, hb, rfl⟩ := forRange_of_bound hn hloop
  have hall := frames_bounded hv hr hc hw hhost hapart ha hb hok henter h
  have hbounded := (List.forall₂_iff_zip.mp hall).2 hmem hidx
  exact ⟨hbounded.passes, hbounded.turns⟩

/-- The host and the module suit each other: the runtime is as wide as the module asks for, and
every chunk has locals for its parameters. -/
structure Suited (env : Env F) : Prop extends Hosted env where
  one : Word.InRange env.module.wordBitsLog2 1

/-- A run enters the loops that the compiler has emitted within the words that the verifier takes
them to begin with. -/
theorem CompiledLoop.run (hv : verify env.module = .ok ()) (hsuited : Suited env) {idx l t : ℕ}
    {c : Chunk} (hc : env.chunk? idx = some c) (hloop : c.ops[l]? = some (.loop t))
    (hn : extractLoopIterationBound c l = some n) (hcomp : CompiledLoop c l)
    (hwords : LoopWords env c l) (hm : ElseMatched c.ops) {γ : Type} {M : Monitor F γ}
    {ok : Vm F → Prop} (hok : ∀ vm, ok vm → HeightStep env vm) {entry : ℕ} {cfg : Config F}
    {gs : List γ} (h : M.Reaches env ok entry cfg gs) :
    M.Reaches env (fun vm => HeightStep env vm ∧ EntersLoop env idx l vm) entry cfg gs := by
  have hw : WellNested c.ops := (checkNesting_region (accepted_of_chunk? hv hc).nesting).matched hm
  obtain ⟨e', -, rfl, -⟩ := (hw.loopsIn (List.getElem?_eq_some_iff.mp hloop).1).opens _ hloop
  have htest := (extractLoopIterationBound_shape hn hloop).1
  refine h.strengthen fun vm gs hreach hvm => ⟨hok vm hvm, fun f rest c' hf hidx hc' hip => ?_⟩
  obtain rfl := Option.some.inj (hc'.symm.trans hc)
  exact hcomp.enters (hidx ▸ hc) hloop htest hwords hsuited.narrow hsuited.one hip
    ((straight_run hv hok hreach).running hf).1

/-- The records of a run keep the bound of a loop that the compiler has emitted. -/
theorem passes_of_bound (hv : verify env.module = .ok ()) (hsuited : Suited env) {idx l t : ℕ}
    {c : Chunk} (hc : env.chunk? idx = some c) (hm : ElseMatched c.ops)
    (hloop : c.ops[l]? = some (.loop t)) (hn : extractLoopIterationBound c l = some n)
    (hcomp : CompiledLoop c l) (hwords : LoopWords env c l) {ok : Vm F → Prop}
    (hok : ∀ vm, ok vm → HeightStep env vm) {entry : ℕ} {cfg : Config F} {logs : List (List ℕ)}
    (h : (executedRecord env anew).Reaches env ok entry cfg logs) {es : List ℕ}
    (hmem : (f, es) ∈ cfg.vm.frames.zip logs) (hidx : f.chunkIdx = idx) :
    AtMost l (l + loopHeader) n (es ++ [f.ip]) :=
  (bounds_kept hv hsuited.toHosted hc hm hloop hn hcomp.apart (fun _ h => h.1) (fun _ h => h.2)
    (hcomp.run hv hsuited hc hloop hn hwords hm hok h) hmem hidx).1

/-- **A counted loop makes no more passes than the verifier has read off it.** In a run whose steps
meet `HeightStep`, what any frame of the chunk has executed between two entries of a loop that the
compiler has emitted goes through the test of the loop at most so often. -/
theorem counted_loop_passes (hv : verify env.module = .ok ()) (hsuited : Suited env) {idx l t n : ℕ}
    {c : Chunk} (hc : env.chunk? idx = some c) (hm : ElseMatched c.ops)
    (hloop : c.ops[l]? = some (.loop t)) (hn : extractLoopIterationBound c l = some n)
    (hcomp : CompiledLoop c l) (hwords : LoopWords env c l) {entry : ℕ} {cfg : Config F}
    {logs : List (List ℕ)}
    (h : (executedRecord env anew).Reaches env (HeightStep env) entry cfg logs) :
    ∀ f es, (f, es) ∈ cfg.vm.frames.zip logs → f.chunkIdx = idx → ∀ seg, seg <:+: es ++ [f.ip] →
      l ∉ seg → seg.count (l + loopHeader) ≤ n := by
  intro f es hmem hidx
  exact passes_of_bound hv hsuited hc hm hloop hn hcomp hwords (fun _ h => h) h hmem hidx

/-! ## A loop of two passes -/

/-- A function that counts from 0 to 2. -/
def countsToTwo : Chunk := { plainChunk [
    .const 0, .setLocal 0, .const 1, .setLocal 1, .loop 15, .getLocal 0, .getLocal 1, .cmpGe,
    .breakIf 15, .getLocal 0, .const 2, .checkedAdd, .popN 2, .setLocal 0, .endLoop 5, .getLocal 0,
    .return] .func 2 0 with constants := [.int 0, .int 2, .int 1] }

/-- A machine that runs it. -/
def countingEnv : Env Unit := plainEnv (plainModule [countsToTwo])

theorem countsToTwo_accepted : verify countingEnv.module = .ok () :=
  verify_of_accepts (by decide +kernel)

theorem countingEnv_suited : Suited countingEnv where
  narrow := le_rfl
  wide := le_rfl
  one := ⟨by decide, by decide⟩
  params c hc := by
    obtain rfl := List.mem_singleton.mp hc
    exact Nat.zero_le _

/-- The heights of its operands. -/
theorem countsToTwo_table :
    FollowsHeights countsToTwo [0, 1, 0, 1, 0, 0, 1, 2, 1, 0, 1, 2, 3, 1, 0, 0, 1] := by
  constructor <;> decide

/-- Its one loop is as the compiler emits it. -/
theorem countsToTwo_compiled : CompiledLoop countsToTwo 4 where
  sets slot h := by
    refine ⟨Nat.zero_le _, ?_⟩
    have hne : 1 ≠ 0 := by decide
    rcases h with h | h
    · cases h
      exact ⟨0, .earlier (i := 1) rfl rfl hne (.here (i := 0) rfl rfl rfl)⟩
    · cases h
      exact ⟨2, .here (i := 1) rfl rfl rfl⟩
  steps m i hm hi := by
    obtain rfl : m = 14 := (Nat.succ.inj (Op.loop.inj (Option.some.inj hm))).symm
    cases hi
    rfl
  within m p hm hlo hhi hs := absurd (List.mem_of_getElem? hs) (by decide)

theorem countsToTwo_words : LoopWords countingEnv countsToTwo 4 := by
  intro slot n hset
  have hmem : ConstValue.int n ∈ [ConstValue.int 0, .int 2, .int 1] := hset.mem
  have hn : n = 0 ∨ n = 2 ∨ n = 1 := by
    simpa using hmem
  rcases hn with rfl | rfl | rfl <;> exact ⟨by decide, by decide⟩

/-- What `countsToTwo` has executed when it stands at its `Return`. -/
def countsToTwoTrail : List ℕ :=
  [0, 1, 2, 3, 4, 5, 6, 7, 8, 9, 10, 11, 12, 13, 14, 5, 6, 7, 8, 9, 10, 11, 12, 13, 14, 5, 6, 7, 8,
    15]

/-- All steps meet the condition on heights. -/
theorem countsToTwo_heights (vm : Vm Unit) : HeightStep countingEnv vm := by
  refine heightStep_of_tables (fun c hc => ?_) vm
  obtain rfl := List.mem_singleton.mp hc
  exact ⟨_, countsToTwo_table⟩

/-- It comes to its `Return` in a run that meets the condition on heights. -/
theorem countsToTwo_reaches : ∃ cfg, (executedRecord countingEnv fun _ => false).Reaches countingEnv
      (HeightStep countingEnv) 0 cfg [countsToTwoTrail] ∧
    ((⟨0, 16, 0⟩, countsToTwoTrail) : CallFrame × List ℕ) ∈ cfg.vm.frames.zip [countsToTwoTrail] :=
  ⟨_, (Monitor.playCall_reaches freshVm_idle (show Monitor.playCall _ _ freshVm 0 []
    (List.replicate 30 none) = some _ from rfl)).mono fun vm _ => countsToTwo_heights vm,
    List.mem_singleton_self _⟩

/-- What it executes behind the `Loop`. -/
theorem countsToTwo_segment : countsToTwoTrail.drop 5 <:+: countsToTwoTrail ++ [16] :=
  (List.drop_suffix 5 _).isInfix.trans (List.prefix_append _ _).isInfix

/-- It goes through the test of its loop twice. -/
theorem countsToTwo_passes : ∃ cfg, (executedRecord countingEnv fun _ => false).Reaches countingEnv
      (HeightStep countingEnv) 0 cfg [countsToTwoTrail] ∧
    extractLoopIterationBound countsToTwo 4 = some 2 ∧
    (countsToTwoTrail.drop 5).count (4 + loopHeader) = 2 ∧
    (countsToTwoTrail.drop 5).count (4 + loopHeader) ≤ 2 := by
  obtain ⟨cfg, hreach, hmem⟩ := countsToTwo_reaches
  exact ⟨cfg, hreach, rfl, by decide, counted_loop_passes countsToTwo_accepted countingEnv_suited
    (c := countsToTwo) rfl countsToTwo_table.matched rfl rfl countsToTwo_compiled countsToTwo_words
    hreach _ _ hmem rfl _ countsToTwo_segment (by decide)⟩

/-- A function that counts from 0 to 1. Between the assignments and the loop stands one that is not
executed, of 1 to the variable. -/
def skipsAnAssignment : Chunk := { plainChunk [
    .const 0, .setLocal 0, .const 1, .setLocal 1, .pushImmediate 2, .ifOp 8, .const 1, .setLocal 0,
    .endIf, .loop 20, .getLocal 0, .getLocal 1, .cmpGe, .breakIf 20, .getLocal 0, .const 1,
    .checkedAdd, .popN 2, .setLocal 0, .endLoop 10, .getLocal 0, .return] .func 2 0 with
    constants := [.int 0, .int 1] }

/-- What it has executed when it stands at its `Return`. -/
def skipsAnAssignmentTrail : List ℕ :=
  [0, 1, 2, 3, 4, 5, 8, 9, 10, 11, 12, 13, 14, 15, 16, 17, 18, 19, 10, 11, 12, 13, 20]

end Keleusma
