import Keleusma.Runtime.Underflow
import Keleusma.Safety.Heights
import Keleusma.Verify.Elision

/-!
# Pops without a check

In a certified module every instruction of a run finds its operands above the locals of its
frame, so that a pop needs no check (`elided_pops_safe`), as long as the certificate is right
about `Reset`. It counts an operand that a resume supplies when the body is entered again, and
after `Reset` a resume supplies none: the condition `ElisionStep` asks that the body finds its
operands from an empty stack.
-/

namespace Keleusma

variable {F : Type} {env : Env F}

/-! ## The condition and the property -/

/-- What the next step relies on and the certificate does not establish. -/
structure ElisionOk (env : Env F) (f : CallFrame) : Prop where
  /-- Before `Reset`: entered again without operands, the body finds those it needs. -/
  reentry : nextOp env f = some .reset → ∀ pos, env.streamIp f.chunkIdx = some pos →
    Supplied (env.ops f.chunkIdx) (pos + 1)
  /-- An indexed read that reports a bounds outcome reads elements that occupy bytes. -/
  sized : ∀ op, nextOp env f = some op → op.Sized env

/-- The innermost frame meets the condition. -/
def ElisionStep (env : Env F) (vm : Vm F) : Prop :=
  ∀ f rest, vm.frames = f :: rest → ElisionOk env f

/-- No pop of the next step goes below the operands of the frame. -/
structure PopsSafe (env : Env F) (vm : Vm F) : Prop where
  /-- Control is at an instruction. -/
  inChunk : ∀ f rest, vm.frames = f :: rest → (nextOp env f).isSome
  /-- The operands it takes lie above the locals. -/
  operands : ∀ f rest op, vm.frames = f :: rest → nextOp env f = some op →
    operandBase env f + op.needs ≤ vm.stack.length
  noUnderflow : step env vm ≠ .error .stackUnderflow

/-! ## Proof -/

/-- The certificate asks for the operands that the handlers take. -/
theorem elisionRequires_eq (op : Op) : elisionRequires op = op.needs := by
  cases op with
  | «return» => rfl
  | _ => exact congrArg Prod.fst (opDepthEffect_eq _)

/-- Control can be at the next instruction of a frame with this many operands, from an entry
that supplies what it comes to. -/
def AtSupplied (env : Env F) (f : CallFrame) (h : ℕ) : Prop :=
  ∃ c entry, env.chunk? f.chunkIdx = some c ∧ Supplied c.ops entry ∧
    Relation.ReflTransGen (Flow c.ops heightEff) (entry, 0) (f.ip, h)

theorem AtSupplied.instr {f : CallFrame} {h : ℕ} (ha : AtSupplied env f h) :
    ∃ op, nextOp env f = some op ∧ op.needs ≤ h := by
  obtain ⟨c, entry, hc, hs, hr⟩ := ha
  obtain ⟨op, hop, hle⟩ := hs f.ip h hr
  rw [elisionRequires_eq] at hle
  exact ⟨op, by rw [nextOp, ops_of_chunk? hc]; exact hop, by exact_mod_cast hle⟩

section Certified

variable (he : verifyPopElision env.module = .ok ())
include he

theorem atSupplied_enter {idx base : ℕ} (hidx : idx < env.module.chunks.length) :
    AtSupplied env ⟨idx, 0, base⟩ 0 := by
  have hc := List.getElem?_eq_getElem hidx
  exact ⟨_, 0, hc, verifyPopElision_supplied he (List.getElem_mem hidx), .refl⟩

/-- Under the condition the supplied heights are an account. -/
theorem ElisionOk.accounts {f : CallFrame} (hok : ElisionOk env f) :
    Accounts env (AtSupplied env) f where
  instr h ha := by
    obtain ⟨op, hop, hle⟩ := ha.instr
    exact ⟨op, hop, (opRequires_le_needs op).trans hle⟩
  next h op ip' ha hop hn hle := by
    obtain ⟨c, entry, hc, hs, hr⟩ := ha
    rw [nextOp, ops_of_chunk? hc] at hop
    exact ⟨c, entry, hc, hs, hr.tail ⟨op, hop, hn, hle, rfl⟩⟩
  sized := hok.sized
  result h ha hop := by
    obtain ⟨op, hop', hle⟩ := ha.instr
    cases hop.symm.trans hop'
    exact hle
  reset h pos ha hop hpos := by
    obtain ⟨c, -, hc, -, -⟩ := ha
    have hsupplied := hok.reentry hop pos hpos
    rw [ops_of_chunk? hc] at hsupplied
    exact ⟨c, pos + 1, hc, hsupplied, .refl⟩
  enter _ _ hidx := atSupplied_enter he hidx

/-- The stack agrees with the supplied heights along every run that meets the condition. -/
theorem stackBy_supplied {γ : Type} {M : Monitor F γ} {c : ℕ} {cfg : Config F} {gs : List γ}
    (h : M.Reaches env (ElisionStep env) c cfg gs) : StackBy env (AtSupplied env) cfg := by
  induction h with
  | start h => exact .start (atSupplied_enter he) h
  | exec _ hok hs ih => exact ih.exec (fun f rest hf => (hok f rest hf).accounts he) hs
  | resume hr shared input hst hs ih => exact ih.resume hst hr.suspension (resume_ok hs)

/-- **In a certified module no pop goes below the operands of its frame**, in any run whose
`Reset`s meet a body that finds its operands from an empty stack. -/
theorem elided_pops_safe {γ : Type} {M : Monitor F γ} {c : ℕ} {cfg : Config F} {gs : List γ}
    (h : M.Reaches env (ElisionStep env) c cfg gs) (hrun : cfg.status = .running) :
    PopsSafe env cfg.vm := by
  obtain ⟨vm, st⟩ := cfg
  dsimp only at hrun ⊢
  subst hrun
  have hinv := stackBy_supplied he h
  have hneeds : ∀ f rest op, vm.frames = f :: rest → nextOp env f = some op →
      operandBase env f + op.needs ≤ vm.stack.length := by
    intro f rest op hf hop
    obtain ⟨⟨k, hk, hlen⟩, -⟩ := hinv.running hf
    obtain ⟨op', hop', hle⟩ := hk.instr
    cases hop.symm.trans hop'
    omega
  refine ⟨?_, hneeds, ?_⟩
  · intro f rest hf
    obtain ⟨⟨k, hk, -⟩, -⟩ := hinv.running hf
    obtain ⟨op, hop, -⟩ := hk.instr
    exact Option.isSome_iff_exists.mpr ⟨op, hop⟩
  · intro herr
    obtain ⟨f, rest, op, hf, hop, hlt⟩ := step_underflow herr
    have hle := hneeds f rest op hf hop
    omega

end Certified

/-- The first iteration of a stream that yields after so many steps and resets two steps later,
and the resume after the reset. -/
def firstIteration (steps : ℕ) : List (Option (Value Unit)) :=
  List.replicate steps none ++ [some .unit, none, none, some .unit]

/-- A body that leaves the stack as it finds it. -/
def steadyBody : Module := plainModule [plainChunk
  [.stream, .pushImmediate 11, .yield, .popN 1, .reset] .stream 1 0]

/-- Every state of `steadyBody` meets the condition. -/
theorem steadyBody_step (vm : Vm Unit) : ElisionStep (plainEnv steadyBody) vm := by
  intro f rest hf
  obtain ⟨idx, ip, base⟩ := f
  cases idx with
  | zero =>
    refine ⟨?_, ?_⟩
    · intro hop pos hpos
      obtain rfl : 0 = pos := Option.some.inj hpos
      exact supplied_of_walk (show _ = Except.ok _ from rfl)
        (show Minima.Work.run _ 8 _ = .ok _ from rfl)
    · intro op hop
      rcases ip with _ | _ | _ | _ | _ | ip <;> cases hop <;> trivial
  | succ idx => exact ⟨nofun, nofun⟩

/-- `steadyBody` is in its second iteration, and its pops are safe. -/
theorem steadyBody_safe : ∃ cfg gs, noRecord.Reaches (plainEnv steadyBody)
    (ElisionStep (plainEnv steadyBody)) 0 cfg gs ∧ cfg.vm.frames = [⟨0, 1, 0⟩] ∧
      PopsSafe (plainEnv steadyBody) cfg.vm := by
  have hreach : noRecord.Reaches (plainEnv steadyBody) (fun _ => True) 0 _ _ :=
    Monitor.playCall_reaches freshVm_idle
      (show Monitor.playCall _ _ freshVm 0 [] (firstIteration 3) = some _ from rfl)
  have hstep := hreach.mono fun vm _ => steadyBody_step vm
  exact ⟨_, _, hstep, rfl, elided_pops_safe rfl hstep rfl⟩

/-! ## A pop of a local slot -/

/-- A body that pops, on entry, the operand that was there before its first iteration. -/
def delayedPop : Module := plainModule [plainChunk
  [.pushImmediate 11, .stream, .popN 1, .pushImmediate 11, .yield, .popN 1, .reset] .stream 1 0]

/-- **A certified module pops a local slot**: after the first `Reset` and the resume that
follows it the stack ends with the locals, and the next instruction takes one of them. -/
theorem delayedPop_unsafe : verify delayedPop = .ok () ∧ verifyPopElision delayedPop = .ok () ∧
    ∃ cfg gs, noRecord.Reaches (plainEnv delayedPop) (fun _ => True) 0 cfg gs ∧
      cfg.status = .running ∧ ¬PopsSafe (plainEnv delayedPop) cfg.vm := by
  refine ⟨rfl, rfl, _, _, Monitor.playCall_reaches freshVm_idle
    (show Monitor.playCall _ _ freshVm 0 [] (firstIteration 5) = some _ from rfl), rfl,
    fun h => ?_⟩
  exact absurd (h.operands ⟨0, 2, 0⟩ [] (.popN 1) rfl rfl) (by decide)

end Keleusma
