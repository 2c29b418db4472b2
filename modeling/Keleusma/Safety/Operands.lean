import Keleusma.Runtime.Underflow
import Keleusma.Safety.Heights

/-!
# Operands along runs

In an accepted module every instruction finds its operands above the locals of its frame, so that
no underflow is reported and no local slot is taken for an operand, and a completed call leaves
its caller one result in place of the arguments (`operands_safe`). The verifier does not ask for
the result that `Return` pops; the condition `HeightStep` lists this and what else it leaves open.
-/

namespace Keleusma

variable {F : Type} {env : Env F}

/-! ## The property -/

/-- For each frame, the height of the stack before the arguments of its call were pushed. -/
def callMonitor (env : Env F) : Monitor F ℕ where
  enter _ := 0
  exec vm before :=
    match vm.frames with
    | [] => before
    | f :: _ =>
      match nextOp env f with
      | some (.call _ n) => (vm.stack.length - n) :: before
      | some .return | none => before.tail
      | _ => before
  resume _ before := before

/-- Which part of the stack an instruction may not touch. `SetLocal` writes the slot its operand
names, `Reset` and `Return` give up the frame's own slots. -/
def LocalsKept (env : Env F) (f : CallFrame) (op : Op) (old new : List (Value F)) : Prop :=
  match op with
  | .setLocal slot => slot < env.chunkLocalCount f.chunkIdx ∧
      ∀ i, i < operandBase env f → i ≠ f.base + slot → new[i]? = old[i]?
  | .reset | .return => SameBelow f.base old new
  | _ => SameBelow (operandBase env f) old new

/-- The next step is safe on the operand stack. -/
structure OperandsSafe (env : Env F) (vm : Vm F) (before : List ℕ) : Prop where
  /-- Control is at an instruction. -/
  inChunk : ∀ f rest, vm.frames = f :: rest → (nextOp env f).isSome
  /-- The operands lie above the locals. -/
  operands : ∀ f rest op, vm.frames = f :: rest → nextOp env f = some op →
    operandBase env f + op.needs ≤ vm.stack.length
  noUnderflow : step env vm ≠ .error .stackUnderflow
  locals : ∀ f rest op o vm', vm.frames = f :: rest → nextOp env f = some op →
    step env vm = .ok (o, vm') → LocalsKept env f op vm.stack vm'.stack
  /-- A frame that ends leaves its caller one result. -/
  returns : ∀ f g rest o vm', vm.frames = f :: g :: rest → step env vm = .ok (o, vm') →
    vm'.frames = g :: rest → ∃ b bs, before = b :: bs ∧ vm'.stack.length = b + 1

/-! ## Proof -/

/-- The recorded heights are the bases of the frames. -/
theorem callMonitor_bases {ok : Vm F → Prop} {c : ℕ} {cfg : Config F} {before : List ℕ}
    (h : (callMonitor env).Reaches env ok c cfg before) : before = cfg.vm.frames.map (·.base) := by
  induction h with
  | start h =>
    obtain ⟨vm, shared, args, hidle, hcall, -⟩ := h
    obtain ⟨chunk, -, -, -, hframes, -⟩ := callFunction_ok hidle hcall
    rw [hframes]
    rfl
  | @exec vm vm' o before _ _ hs ih =>
    subst ih
    have hop' : ∀ {f : CallFrame} {o : Option Op}, (env.ops f.chunkIdx)[f.ip]? = o →
        nextOp env f = o := id
    cases step_moved hs with
    | @advance f rest op ip' _ ha hstays =>
      simp only [callMonitor, ha.frames, ha.frames', hop' ha.op_at, List.map_cons]
      cases op <;> first | rfl | exact hstays.elim
    | reset hf hop hlen hpos hf' =>
      simp only [callMonitor, hf, hf', hop' hop, List.map_cons]
    | call hf hop hidx hn hlc hf' =>
      simp only [callMonitor, hf, hf', hop' hop, List.map_cons]
    | returnTo hf hop hv hne hf' =>
      simp only [callMonitor, hf, hf', hop' hop, List.map_cons, List.tail_cons]
    | runOffTo hf hop hne hf' =>
      simp only [callMonitor, hf, hf', hop' hop, List.map_cons, List.tail_cons]
    | finish hf hop hf' =>
      rcases hop with hop | hop <;>
        simp only [callMonitor, hf, hf', hop' hop, List.map_cons, List.map_nil, List.tail_cons]
    | yield hf hop hv hf' =>
      simp only [callMonitor, hf, hf', hop' hop, List.map_cons]
  | resume _ shared input _ hs ih => rw [(resume_ok hs).frames]; exact ih

theorem sameBelow_append {V : Type} {l extra : List V} {n : ℕ} (h : n ≤ l.length) :
    SameBelow n l (l ++ extra) :=
  List.take_append_of_le_length h

theorem sameBelow_dropLast {V : Type} {l : List V} {n : ℕ} (h : n < l.length) :
    SameBelow n l l.dropLast := by
  show List.take _ _ = List.take _ _
  rw [List.dropLast_eq_take, List.take_take, Nat.min_eq_left (by omega)]

section Accepted

variable (hv : verify env.module = .ok ())
include hv

/-- Every instruction finds its operands above the locals. -/
theorem HeightInv.operands {vm : Vm F} {f : CallFrame} {rest : List CallFrame} {op : Op}
    (h : HeightInv env ⟨vm, .running⟩) (hok : HeightStep env vm) (hf : vm.frames = f :: rest)
    (hop : nextOp env f = some op) : operandBase env f + op.needs ≤ vm.stack.length := by
  obtain ⟨⟨k, hk, hlen⟩, -⟩ := h.running hf
  obtain ⟨op', hop', hle⟩ := hk.instr hv (hok f rest hf).matched
  cases hop.symm.trans hop'
  cases op with
  | «return» =>
    have hpos := hk.result_pos (hok f rest hf) hop
    show operandBase env f + 1 ≤ vm.stack.length
    omega
  | _ => exact (Nat.add_le_add_left hle _).trans hlen.ge

/-- An instruction leaves the locals alone. -/
theorem HeightInv.localsKept {vm vm' : Vm F} {o : Outcome F} {f : CallFrame}
    {rest : List CallFrame} {op : Op} (h : HeightInv env ⟨vm, .running⟩) (hok : HeightStep env vm)
    (hf : vm.frames = f :: rest) (hop : nextOp env f = some op)
    (hs : step env vm = .ok (o, vm')) : LocalsKept env f op vm.stack vm'.stack := by
  have hneeds := h.operands hv hok hf hop
  obtain ⟨⟨k, hk, -⟩, hcallers⟩ := h.running hf
  have hbase : f.base ≤ operandBase env f := Nat.le_add_right _ _
  by_cases hset : ∃ slot, op = .setLocal slot
  · obtain ⟨slot, rfl⟩ := hset
    cases step_stepped hs with
    | plain hf₁ hop₁ hp hexec =>
      cases hf.symm.trans hf₁
      cases Option.some.inj (hop.symm.trans hop₁)
      obtain ⟨v, hv', hlt, rfl⟩ := execOp_setLocal hexec
      obtain ⟨c, hc, -⟩ := hk
      rw [nextOp, ops_of_chunk? hc] at hop
      have hslot := (accepted_of_chunk? hv hc).slot_lt hop (.inr rfl)
      refine ⟨by simpa [Env.chunkLocalCount, hc] using hslot, fun i hi hne => ?_⟩
      change operandBase env f + 1 ≤ vm.stack.length at hneeds
      show (vm.stack.dropLast.set (f.base + slot) v)[i]? = vm.stack[i]?
      rw [List.getElem?_set_ne hne.symm, List.getElem?_dropLast, if_pos (by omega)]
    | branch hf₁ hop₁ hb hip =>
      cases hf.symm.trans hf₁
      rcases hip with ⟨rfl, -⟩ | ⟨rfl, -⟩ <;> cases Option.some.inj (hop.symm.trans hop₁)
    | jump hf₁ hop₁ hj =>
      cases hf.symm.trans hf₁
      rcases hj with rfl | rfl | rfl <;> cases Option.some.inj (hop.symm.trans hop₁)
    | mark hf₁ hop₁ hm =>
      cases hf.symm.trans hf₁
      rcases hm with rfl | ⟨t, rfl⟩ | rfl <;> cases Option.some.inj (hop.symm.trans hop₁)
    | reset hf₁ hop₁ =>
      cases hf.symm.trans hf₁
      cases Option.some.inj (hop.symm.trans hop₁)
    | call hf₁ hop₁ =>
      cases hf.symm.trans hf₁
      cases Option.some.inj (hop.symm.trans hop₁)
    | «return» hf₁ hop₁ =>
      cases hf.symm.trans hf₁
      cases Option.some.inj (hop.symm.trans hop₁)
    | endOfChunk hf₁ hop₁ =>
      cases hf.symm.trans hf₁
      cases hop.symm.trans hop₁
    | yield hf₁ hop₁ =>
      cases hf.symm.trans hf₁
      cases Option.some.inj (hop.symm.trans hop₁)
  have hnot : ∀ slot, op ≠ .setLocal slot := fun slot he => hset ⟨slot, he⟩
  cases step_moved hs with
  | @advance f₁ rest₁ op₁ ip' _ ha hstays =>
    cases hf.symm.trans ha.frames
    obtain rfl := Option.some.inj (hop.symm.trans ha.op_at)
    have hkeeps : op.keeps f.base vm.stack.length = vm.stack.length - opRequires op := by
      cases op <;> first | rfl | exact absurd rfl (hnot _)
    have hreq := opRequires_le_needs op
    have hbelow : SameBelow (operandBase env f) vm.stack vm'.stack :=
      ha.below.mono (by rw [hkeeps]; omega)
    cases op <;> first | exact hbelow | exact hstays.elim | exact absurd rfl (hnot _)
  | @reset f₁ rest₁ pos _ hf₁ hop₁ hlen hpos hf' hstack =>
    cases hf.symm.trans hf₁
    cases Option.some.inj (hop.symm.trans hop₁)
    show List.take f.base vm'.stack = _
    rw [hstack, List.take_append_of_le_length (by rw [List.length_take]; omega), List.take_take,
      Nat.min_self]
  | @call f₁ rest₁ idx n _ hf₁ hop₁ hidx hn hlc hf' hstack =>
    cases hf.symm.trans hf₁
    cases Option.some.inj (hop.symm.trans hop₁)
    show SameBelow _ _ _
    rw [hstack]
    exact sameBelow_append (by omega)
  | @returnTo f₁ rest₁ v _ hf₁ hop₁ hv' hne hf' hstack =>
    cases hf.symm.trans hf₁
    cases Option.some.inj (hop.symm.trans hop₁)
    change operandBase env f + 1 ≤ vm.stack.length at hneeds
    have hlen : f.base ≤ (vm.stack.dropLast.take f.base).length := by
      rw [List.length_take, List.length_dropLast]
      omega
    show List.take f.base vm'.stack = _
    rw [hstack, List.take_append_of_le_length hlen, List.take_take, Nat.min_self]
    exact sameBelow_dropLast (by omega)
  | runOffTo hf₁ hop₁ =>
    cases hf.symm.trans hf₁
    cases hop.symm.trans hop₁
  | @finish f₁ v _ hf₁ hop₁ hf' =>
    cases hf.symm.trans hf₁
    rcases hop₁ with hop₁ | hop₁
    · cases Option.some.inj (hop.symm.trans hop₁)
      have hzero : f.base = 0 := hcallers
      show SameBelow f.base _ _
      rw [hzero]
      rfl
    · cases hop.symm.trans hop₁
  | @yield f₁ rest₁ v w _ hf₁ hop₁ hv' hf' hstack =>
    cases hf.symm.trans hf₁
    cases Option.some.inj (hop.symm.trans hop₁)
    change operandBase env f + 1 ≤ vm.stack.length at hneeds
    show SameBelow _ _ _
    rw [hstack]
    exact sameBelow_dropLast (by omega)

/-- A frame that ends leaves the stack at its base, with one result on top. -/
theorem HeightInv.returns {vm vm' : Vm F} {o : Outcome F} {f g : CallFrame}
    {rest : List CallFrame} (h : HeightInv env ⟨vm, .running⟩) (hok : HeightStep env vm)
    (hf : vm.frames = f :: g :: rest) (hs : step env vm = .ok (o, vm'))
    (hf' : vm'.frames = g :: rest) : vm'.stack.length = f.base + 1 := by
  have hlonger : ∀ {a : CallFrame}, vm'.frames ≠ a :: g :: rest := fun he => by
    have := congrArg List.length (hf'.symm.trans he)
    simp at this
  cases step_moved hs with
  | advance ha hstays =>
    cases hf.symm.trans ha.frames
    exact absurd ha.frames' hlonger
  | reset hf₁ hop hlen hpos hf₁' =>
    cases hf.symm.trans hf₁
    exact absurd hf₁' hlonger
  | call hf₁ hop hidx hn hlc hf₁' =>
    cases hf.symm.trans hf₁
    have := congrArg List.length (hf'.symm.trans hf₁')
    simp at this
  | @returnTo f₁ rest₁ v _ hf₁ hop hv' hne hf₁' hstack =>
    cases hf.symm.trans hf₁
    have hneeds := h.operands hv hok hf hop
    change operandBase env f + 1 ≤ vm.stack.length at hneeds
    have hbase : f.base ≤ operandBase env f := Nat.le_add_right _ _
    rw [hstack]
    simp only [List.length_append, List.length_take, List.length_dropLast, List.length_singleton]
    omega
  | runOffTo hf₁ hop =>
    cases hf.symm.trans hf₁
    obtain ⟨⟨k, hk, -⟩, -⟩ := h.running hf
    obtain ⟨op, hop', -⟩ := hk.instr hv (hok f _ hf).matched
    cases hop.symm.trans hop'
  | finish hf₁ => cases hf.symm.trans hf₁
  | yield hf₁ hop hv' hf₁' =>
    cases hf.symm.trans hf₁
    exact absurd hf₁' hlonger

/-- **In a run whose steps meet the condition every step is safe on the operand stack.** -/
theorem operands_safe {c : ℕ} {cfg : Config F} {before : List ℕ}
    (h : (callMonitor env).Reaches env (HeightStep env) c cfg before)
    (hrun : cfg.status = .running) (hok : HeightStep env cfg.vm) :
    OperandsSafe env cfg.vm before := by
  obtain ⟨vm, st⟩ := cfg
  dsimp only at hrun hok ⊢
  subst hrun
  have hinv := height_inv hv (fun _ h => h) h
  have hbases := callMonitor_bases h
  refine ⟨fun f rest hf => ?_, fun f rest op => hinv.operands hv hok, fun he => ?_,
    fun f rest op o vm' => hinv.localsKept hv hok, fun f g rest o vm' hf hs hf' => ?_⟩
  · obtain ⟨⟨k, hk, -⟩, -⟩ := hinv.running hf
    obtain ⟨op, hop, -⟩ := hk.instr hv (hok f rest hf).matched
    exact Option.isSome_iff_exists.mpr ⟨op, hop⟩
  · obtain ⟨f, rest, op, hf, hop, hlt⟩ := step_underflow he
    have := hinv.operands hv hok hf hop
    omega
  · refine ⟨f.base, (g :: rest).map (·.base), ?_, hinv.returns hv hok hf hs hf'⟩
    rw [hbases]
    dsimp only
    rw [hf, List.map_cons]

end Accepted

/-- Every state of `callsEachTick` meets the condition. -/
theorem callsEachTick_heights (vm : Vm Unit) : HeightStep (plainEnv callsEachTick) vm := by
  refine heightStep_of_tables (fun c hc => ?_) vm
  rcases List.mem_pair.mp hc with rfl | rfl
  · exact ⟨[0, 0, 1, 1, 0], by constructor <;> decide⟩
  · exact ⟨[0, 1], by constructor <;> decide⟩

/-- In the second iteration of `callsEachTick`, behind a `Return`, a `Yield`, a `Reset` and another
`Call`, the next `Return` is safe. -/
theorem callsEachTick_safe : verify callsEachTick = .ok () ∧
    ∃ cfg before, (callMonitor (plainEnv callsEachTick)).Reaches (plainEnv callsEachTick)
      (HeightStep (plainEnv callsEachTick)) 0 cfg before ∧
      cfg.vm.frames = [⟨1, 1, 0⟩, ⟨0, 2, 0⟩] ∧
      OperandsSafe (plainEnv callsEachTick) cfg.vm before := by
  have hreach : (callMonitor (plainEnv callsEachTick)).Reaches (plainEnv callsEachTick)
      (fun _ => True) 0 _ _ :=
    Monitor.playCall_reaches freshVm_idle (show Monitor.playCall _ _ freshVm 0 []
      [none, none, none, none, none, some .unit, none, none, some .unit, none, none] = some _
        from rfl)
  have hstep := hreach.mono fun vm _ => callsEachTick_heights vm
  exact ⟨rfl, _, _, hstep, rfl, operands_safe rfl hstep rfl (callsEachTick_heights _)⟩

/-! ## A return without a result -/

/-- A chunk that returns with nothing on the stack. -/
def bareReturn : Module := plainModule [plainChunk [.return] .func 0 0]

/-- **An accepted module underflows.** -/
theorem bareReturn_underflows : verify bareReturn = .ok () ∧
    ∃ cfg before, (callMonitor (plainEnv bareReturn)).Reaches (plainEnv bareReturn)
      (fun _ => True) 0 cfg before ∧ cfg.status = .running ∧
      step (plainEnv bareReturn) cfg.vm = .error .stackUnderflow ∧
      ¬OperandsSafe (plainEnv bareReturn) cfg.vm before := by
  have herr : ∀ vm : Vm Unit, vm.frames = [⟨0, 0, 0⟩] → vm.stack = [] →
      step (plainEnv bareReturn) vm = .error .stackUnderflow := by
    intro vm hf hst
    obtain ⟨⟩ := vm
    cases hf
    cases hst
    rfl
  refine ⟨rfl, _, _, Monitor.playCall_reaches freshVm_idle
    (show Monitor.playCall _ _ freshVm 0 [] [] = some _ from rfl), rfl, herr _ rfl rfl, fun h => ?_⟩
  exact h.noUnderflow (herr _ rfl rfl)

end Keleusma
