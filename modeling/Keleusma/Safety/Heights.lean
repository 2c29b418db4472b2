import Keleusma.Safety.Monitor
import Keleusma.Verify.RunOff

/-!
# Heights along runs

An account of the heights says with how many operands control can be at the next instruction of a
frame, and the stack agrees with it along a run as long as the account covers each step
(`StackBy.exec`). By the effects of the instructions alone (`AtHeight`) the account is the
invariant `HeightInv`, which holds in every run whose steps meet `HeightStep`, a condition on what
the verifier leaves open in the chunk of the innermost frame: `Else` operands, the heights at which
control comes to a `Return`, the height at the `Stream` that `Reset` returns to, and indexed reads
of elements that occupy no bytes.
-/

namespace Keleusma

variable {F : Type} {env : Env F}

/-- Where the operands of a frame begin. -/
def operandBase (env : Env F) (f : CallFrame) : ℕ := f.base + env.chunkLocalCount f.chunkIdx

/-! ## Heights by an account

An account `A` says with how many operands control can be at the next instruction of a frame.
The stack agrees with it when the innermost frame has such a number of operands and each frame
below waits for one result above those it has kept. -/

/-- The callers of a frame with the given base: each waits for one result above the operands it
has kept, which end where its callee begins. -/
def WaitingBy (env : Env F) (A : CallFrame → ℕ → Prop) : List CallFrame → ℕ → Prop
  | [], base => base = 0
  | f :: rest, base =>
    (∃ k, A f (k + 1) ∧ base = operandBase env f + k) ∧ WaitingBy env A rest f.base

/-- The stack agrees with the account. A frame that has yielded waits for one value like a
caller. -/
def StackBy (env : Env F) (A : CallFrame → ℕ → Prop) (cfg : Config F) : Prop :=
  match cfg.vm.frames with
  | [] => True
  | f :: rest =>
    if cfg.status = .yielded then WaitingBy env A (f :: rest) cfg.vm.stack.length
    else (∃ h, A f h ∧ cfg.vm.stack.length = operandBase env f + h) ∧ WaitingBy env A rest f.base

/-- What an account has to say of the innermost frame for a step to stay within it. -/
structure Accounts (env : Env F) (A : CallFrame → ℕ → Prop) (f : CallFrame) : Prop where
  /-- Control is at an instruction, and its operands are there. -/
  instr : ∀ h, A f h → ∃ op, nextOp env f = some op ∧ opRequires op ≤ h
  /-- The height follows the effects of the instructions. -/
  next : ∀ h op ip', A f h → nextOp env f = some op → ip' ∈ op.next f.ip → opRequires op ≤ h →
    A { f with ip := ip' } (h - opRequires op + opProduces op)
  /-- An indexed read that reports a bounds outcome reads elements that occupy bytes. -/
  sized : ∀ op, nextOp env f = some op → op.Sized env
  /-- `Return` finds its result. -/
  result : ∀ h, A f h → nextOp env f = some .return → 0 < h
  /-- `Reset` goes on after `Stream` without operands. -/
  reset : ∀ h pos, A f h → nextOp env f = some .reset → env.streamIp f.chunkIdx = some pos →
    A { f with ip := pos + 1 } 0
  /-- A frame begins without operands. -/
  enter : ∀ idx base, idx < env.module.chunks.length → A ⟨idx, 0, base⟩ 0

section Account

variable {A : CallFrame → ℕ → Prop}

theorem Accounts.at_next {f : CallFrame} {h ip' : ℕ} {op : Op} (hok : Accounts env A f) (ha : A f h) (hop : nextOp env f = some op)
    (hn : ip' ∈ op.next f.ip) :
    opRequires op ≤ h ∧ A { f with ip := ip' } (h - opRequires op + opProduces op) := by
  obtain ⟨op', hop', hle⟩ := hok.instr h ha
  cases hop.symm.trans hop'
  exact ⟨hle, hok.next h op ip' ha hop hn hle⟩

theorem StackBy.running {vm : Vm F} {f : CallFrame} {rest : List CallFrame}
    (h : StackBy env A ⟨vm, .running⟩) (hf : vm.frames = f :: rest) :
    (∃ h, A f h ∧ vm.stack.length = operandBase env f + h) ∧ WaitingBy env A rest f.base := by
  unfold StackBy at h
  dsimp only at h
  rw [hf] at h
  exact h

theorem StackBy.of_running {vm : Vm F} {f : CallFrame} {rest : List CallFrame} {h : ℕ}
    (hf : vm.frames = f :: rest) (ha : A f h) (hlen : vm.stack.length = operandBase env f + h)
    (hc : WaitingBy env A rest f.base) {st : Status} (hst : st ≠ .yielded) :
    StackBy env A ⟨vm, st⟩ := by
  unfold StackBy
  dsimp only
  rw [hf]
  simp only [if_neg hst]
  exact ⟨⟨h, ha, hlen⟩, hc⟩

/-- **A step keeps the stack in agreement with an account that covers it.** -/
theorem StackBy.exec {vm vm' : Vm F} {o : Outcome F} (h : StackBy env A ⟨vm, .running⟩)
    (hok : ∀ f rest, vm.frames = f :: rest → Accounts env A f)
    (hs : (step env).run vm = .ok (o, vm')) : StackBy env A ⟨vm', o.status⟩ := by
  cases step_moved hs with
  | @advance f rest op ip' _ ha hstays =>
    obtain ⟨⟨k, hk, hlen⟩, hc⟩ := h.running ha.frames
    have hok := hok f rest ha.frames
    obtain ⟨hle, hnext⟩ := hok.at_next hk ha.op_at ha.next
    have hlen' := ha.replaced.length
    rw [(hok.sized op ha.op_at).results_eq] at hlen'
    refine .of_running ha.frames' hnext ?_ hc nofun
    show vm'.stack.length = operandBase env f + _
    omega
  | @reset f rest pos _ hf hop hlen hpos hf' hstack hsus hstart =>
    obtain ⟨⟨k, hk, hheight⟩, hc⟩ := h.running hf
    refine .of_running hf' ((hok f rest hf).reset k pos hk hop hpos) ?_ hc nofun
    show vm'.stack.length = f.base + env.chunkLocalCount f.chunkIdx + 0
    unfold operandBase at hheight
    rw [hstack]
    simp only [List.length_append, List.length_take, List.length_replicate]
    omega
  | @call f rest idx n _ hf hop hidx hn hlc hf' hstack hsus hstart =>
    obtain ⟨⟨k, hk, hlen⟩, hc⟩ := h.running hf
    have hok := hok f rest hf
    obtain ⟨hle, hnext⟩ := hok.at_next hk hop (List.mem_singleton_self _)
    rw [opRequires_call] at hle
    rw [opRequires_call, opProduces_call] at hnext
    refine .of_running hf' (hok.enter idx _ hidx) ?_ ⟨⟨k - n, hnext, ?_⟩, hc⟩ nofun
    · show vm'.stack.length = vm.stack.length - n + env.chunkLocalCount idx + 0
      rw [hstack]
      simp only [List.length_append, List.length_replicate]
      omega
    · show vm.stack.length - n = operandBase env f + (k - n)
      omega
  | @returnTo f rest v _ hf hop hv' hne hf' hstack hsus hstart =>
    obtain ⟨⟨j, hj, hlen⟩, hc⟩ := h.running hf
    have hpos := (hok f rest hf).result j hj hop
    cases rest with
    | nil => exact absurd rfl hne
    | cons g rest =>
      obtain ⟨⟨k, hk, hbase⟩, hc⟩ := hc
      refine .of_running hf' hk ?_ hc nofun
      have hle : f.base ≤ operandBase env f := Nat.le_add_right _ _
      rw [hstack]
      simp only [List.length_append, List.length_take, List.length_dropLast, List.length_singleton]
      omega
  | @runOffTo f rest _ hf hop hne hf' hstack hsus hstart =>
    obtain ⟨⟨k, hk, -⟩, -⟩ := h.running hf
    obtain ⟨op, hop', -⟩ := (hok f rest hf).instr k hk
    cases hop.symm.trans hop'
  | @finish f v _ hf hop hf' =>
    unfold StackBy
    dsimp only
    rw [hf']
    trivial
  | @yield f rest v w _ hf hop hv' hf' hstack hsus hstart =>
    obtain ⟨⟨k, hk, hlen⟩, hc⟩ := h.running hf
    obtain ⟨hle, hnext⟩ := (hok f rest hf).at_next hk hop (List.mem_singleton_self _)
    unfold StackBy
    dsimp only
    rw [hf']
    simp only [Outcome.status, if_true]
    refine ⟨⟨k - 1, hnext, ?_⟩, hc⟩
    change 1 ≤ k at hle
    show vm'.stack.length = operandBase env f + (k - 1)
    rw [hstack, List.length_dropLast]
    omega

/-- A resume gives a frame that has yielded its value, and a frame that has reset nothing. -/
theorem StackBy.resume {vm vm' : Vm F} {st : Status} (h : StackBy env A ⟨vm, st⟩)
    (hst : st = .yielded ∨ st = .reset)
    (hsus : (st = .yielded → vm.suspendedAtReset = false) ∧
      (st = .reset → vm.suspendedAtReset = true)) (hr : Resumed env vm vm') :
    StackBy env A ⟨vm', .running⟩ := by
  obtain ⟨v, w, hstack⟩ := hr.stack
  have hlen : vm'.stack.length = vm.stack.length + if vm.suspendedAtReset then 0 else 1 := by
    rw [hstack, List.length_append]
    congr 1
    · split <;> simp
    · split <;> rfl
  have hframes := hr.frames
  unfold StackBy at h
  dsimp only at h
  cases hf : vm.frames with
  | nil => exact absurd hf hr.nonempty
  | cons f rest =>
    rw [hf] at h hframes
    dsimp only at h
    rcases hst with rfl | rfl
    · rw [if_pos rfl] at h
      obtain ⟨⟨k, hk, hbase⟩, hc⟩ := h
      rw [hsus.1 rfl] at hlen
      refine .of_running hframes hk ?_ hc nofun
      simp only [Bool.false_eq_true, if_false] at hlen
      omega
    · rw [if_neg nofun] at h
      obtain ⟨⟨k, hk, hbase⟩, hc⟩ := h
      rw [hsus.2 rfl] at hlen
      refine .of_running hframes hk ?_ hc nofun
      simp only [if_true] at hlen
      omega

/-- A host call enters its chunk without operands. -/
theorem StackBy.start {c : ℕ} {cfg : Config F}
    (henter : c < env.module.chunks.length → A ⟨c, 0, 0⟩ 0)
    (h : Entered env c cfg) : StackBy env A cfg := by
  obtain ⟨vm, shared, args, hidle, hcall, hst⟩ := h
  obtain ⟨chunk, hc, -, -, hframes, hlen, -⟩ := callFunction_ok hidle hcall
  obtain ⟨vm', st⟩ := cfg
  dsimp only at hst hframes hlen
  subst hst
  have hidx : c < env.module.chunks.length := (List.getElem?_eq_some_iff.mp hc).1
  refine .of_running hframes (henter hidx) ?_ rfl nofun
  rw [hlen]
  simp [operandBase, Env.chunkLocalCount, hc]

end Account

/-! ## The condition -/

/-- Control can reach the `Stream` of a chunk without operands on the stack. -/
def StreamAtZero (ops : List Op) : Prop :=
  ∃ pos, ops[pos]? = some .stream ∧ FlowReaches ops heightEff 0 pos 0

/-- What the next step relies on and the verifier does not check. -/
structure HeightOk (env : Env F) (f : CallFrame) : Prop where
  /-- The `Else` operands of the chunk name their own `EndIf`. -/
  matched : ElseMatched (env.ops f.chunkIdx)
  /-- An indexed read that reports a bounds outcome reads elements that occupy bytes. -/
  sized : ∀ op, nextOp env f = some op → op.Sized env
  /-- Control comes to a `Return` with an operand on the stack. -/
  result : nextOp env f = some .return →
    ∀ h, FlowReaches (env.ops f.chunkIdx) heightEff 0 f.ip h → 0 < h
  /-- `Reset` returns to a `Stream` that control reaches without operands. -/
  stream : nextOp env f = some .reset → StreamAtZero (env.ops f.chunkIdx)

/-- Where there are no instructions nothing is relied on. -/
theorem HeightOk.of_nil {f : CallFrame} (hops : env.ops f.chunkIdx = []) : HeightOk env f := by
  have hnone : nextOp env f = none := by rw [nextOp, hops, List.getElem?_nil]
  refine ⟨?_, fun op hop => ?_, fun hop => ?_, fun hop => ?_⟩
  · rw [hops]
    rintro p t ⟨⟩
  all_goals
    rw [hnone] at hop
    cases hop

/-- The innermost frame meets the condition. -/
def HeightStep (env : Env F) (vm : Vm F) : Prop :=
  ∀ f rest, vm.frames = f :: rest → HeightOk env f

/-! ## The invariant -/

/-- Control can be at the next instruction of a frame with this many operands. -/
def AtHeight (env : Env F) (f : CallFrame) (h : ℕ) : Prop :=
  ∃ c, env.chunk? f.chunkIdx = some c ∧ FlowReaches c.ops heightEff 0 f.ip h

/-- The callers of a frame with the given base, by the effects of the instructions. -/
def CallersAt (env : Env F) : List CallFrame → ℕ → Prop := WaitingBy env (AtHeight env)

/-- The stack agrees with the effects of the instructions. -/
def HeightInv (env : Env F) : Config F → Prop := StackBy env (AtHeight env)

theorem HeightInv.running {vm : Vm F} {f : CallFrame} {rest : List CallFrame}
    (h : HeightInv env ⟨vm, .running⟩) (hf : vm.frames = f :: rest) :
    (∃ h, AtHeight env f h ∧ vm.stack.length = operandBase env f + h) ∧
      CallersAt env rest f.base :=
  StackBy.running h hf

/-- A `Return` finds its result. -/
theorem AtHeight.result_pos {f : CallFrame} {h : ℕ} (ha : AtHeight env f h) (hok : HeightOk env f)
    (hop : nextOp env f = some .return) : 0 < h := by
  obtain ⟨c, hc, hr⟩ := ha
  exact hok.result hop h (ops_of_chunk? hc ▸ hr)

section Accepted

variable (hv : verify env.module = .ok ())
include hv

/-- Control is at an instruction, and its operands are there. -/
theorem AtHeight.instr {f : CallFrame} {h : ℕ} (ha : AtHeight env f h)
    (hm : ElseMatched (env.ops f.chunkIdx)) :
    ∃ op, (env.ops f.chunkIdx)[f.ip]? = some op ∧ opRequires op ≤ h := by
  obtain ⟨c, hc, hr⟩ := ha
  rw [ops_of_chunk? hc] at hm ⊢
  exact accepted_heights hv hc hm hr

/-- The condition makes the effects of the instructions an account. -/
theorem HeightOk.accounts {f : CallFrame} (hok : HeightOk env f) :
    Accounts env (AtHeight env) f where
  instr h ha := ha.instr hv hok.matched
  next h op ip' ha hop hn hle := by
    obtain ⟨c, hc, hr⟩ := ha
    rw [nextOp, ops_of_chunk? hc] at hop
    exact ⟨c, hc, hr.next hop hn ⟨hle, rfl⟩⟩
  sized := hok.sized
  result _ ha := ha.result_pos hok
  reset h pos ha hop hpos := by
    obtain ⟨c, hchunk, -⟩ := ha
    have hstream := streamIp_getElem? hpos
    obtain ⟨pos', hpos', hreach⟩ := hok.stream hop
    rw [ops_of_chunk? hchunk] at hstream hpos' hreach
    -- the chunk has one `Stream`, so the one reached at height 0 is the one `Reset` returns to
    obtain rfl := (accepted_of_chunk? hv hchunk).stream_unique hpos' hstream
    exact ⟨c, hchunk, hreach.next hstream (List.mem_singleton_self _) ⟨Nat.zero_le _, rfl⟩⟩
  enter idx base hidx := ⟨_, List.getElem?_eq_getElem hidx, .refl⟩

/-- **The invariant holds in every run whose steps meet the condition.** -/
theorem height_inv {γ : Type} {M : Monitor F γ} {ok : Vm F → Prop}
    (hok : ∀ vm, ok vm → HeightStep env vm) {c : ℕ} {cfg : Config F} {gs : List γ}
    (h : M.Reaches env ok c cfg gs) : HeightInv env cfg := by
  induction h with
  | start h => exact StackBy.start (fun hidx => ⟨_, List.getElem?_eq_getElem hidx, .refl⟩) h
  | exec _ hstep hs ih =>
    exact StackBy.exec ih (fun f rest hf => (hok _ hstep f rest hf).accounts hv) hs
  | resume hr shared input hst hs ih => exact StackBy.resume ih hst hr.suspension (resume_ok hs)

end Accepted

/-! ## Tables of heights -/

/-- The instructions follow a table of heights, one for each position. -/
def FollowsTable (ops : List Op) (table : List ℕ) : Prop :=
  ∀ ip < ops.length, ∀ op ∈ ops[ip]?, ∀ ip' ∈ op.next ip,
    table[ip']? = some (table.getD ip 0 - opRequires op + opProduces op)

instance (ops : List Op) (table : List ℕ) : Decidable (FollowsTable ops table) := by
  unfold FollowsTable
  infer_instance

/-- Control comes to each position with the height in the table. -/
theorem FollowsTable.height {ops : List Op} {table : List ℕ} (h : FollowsTable ops table)
    (hstart : table[0]? = some 0) {ip k : ℕ} (hr : FlowReaches ops heightEff 0 ip k) :
    table[ip]? = some k := by
  have hall : ∀ s : ℕ × ℕ, Relation.ReflTransGen (Flow ops heightEff) (0, 0) s →
      table[s.1]? = some s.2 := by
    intro s hs
    induction hs with
    | refl => exact hstart
    | @tail s s' _ hstep ih =>
      obtain ⟨op, hop, hn, hreq, hnext⟩ := hstep
      have hlt := (List.getElem?_eq_some_iff.mp hop).1
      rw [h s.1 hlt op hop s'.1 hn, List.getD_eq_getElem?_getD, ih, hnext]
      rfl
  exact hall (ip, k) hr

/-- An instruction of which the heights ask nothing but its operands. -/
def Op.isPlain : Op → Bool
  | .elseOp _ | .getIndex _ => false
  | _ => true

/-- A chunk that a table of heights shows to meet the condition. -/
structure FollowsHeights (c : Chunk) (table : List ℕ) : Prop where
  follows : FollowsTable c.ops table
  start : table[0]? = some 0
  returns : ∀ ip < c.ops.length, c.ops[ip]? = some .return → 0 < table.getD ip 0
  plain : ∀ op ∈ c.ops, op.isPlain = true
  streams : .reset ∈ c.ops → c.ops[0]? = some .stream

theorem Op.Sized.of_plain {op : Op} (h : op.isPlain = true) : op.Sized env := by
  cases op with
  | getIndex => cases h
  | _ => trivial

namespace FollowsHeights

variable {c : Chunk} {table : List ℕ}

theorem matched (h : FollowsHeights c table) : ElseMatched c.ops := by
  intro p t hop
  cases h.plain _ (List.mem_of_getElem? hop)

theorem height_pos (h : FollowsHeights c table) {ip k : ℕ} (hop : c.ops[ip]? = some .return)
    (hr : FlowReaches c.ops heightEff 0 ip k) : 0 < k := by
  have hpos := h.returns ip (List.getElem?_eq_some_iff.mp hop).1 hop
  rwa [List.getD_eq_getElem?_getD, h.follows.height h.start hr] at hpos

theorem heightOk (h : FollowsHeights c table) {f : CallFrame}
    (hc : env.chunk? f.chunkIdx = some c) : HeightOk env f := by
  have hops := ops_of_chunk? hc
  refine ⟨hops ▸ h.matched, fun op hop => ?_, fun hop k hr => ?_, fun hop => ?_⟩
  · rw [nextOp, hops] at hop
    exact .of_plain (h.plain op (List.mem_of_getElem? hop))
  · rw [nextOp, hops] at hop
    exact h.height_pos hop (hops ▸ hr)
  · rw [nextOp, hops] at hop
    rw [hops]
    exact ⟨0, h.streams (List.mem_of_getElem? hop), .refl⟩

end FollowsHeights

/-- Where every chunk follows a table, all steps meet the condition. -/
theorem heightStep_of_tables (h : ∀ c ∈ env.module.chunks, ∃ table, FollowsHeights c table)
    (vm : Vm F) : HeightStep env vm := by
  intro f rest _
  cases hc : env.chunk? f.chunkIdx with
  | none => exact .of_nil (by rw [Env.ops, hc, Option.elim_none])
  | some c =>
    obtain ⟨table, htable⟩ := h c (List.mem_of_getElem? hc)
    exact htable.heightOk hc

end Keleusma
