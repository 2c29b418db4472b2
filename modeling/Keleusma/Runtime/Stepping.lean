import Keleusma.Runtime.Step

/-!
# What a step does

`Stepped` lists what a successful step of the machine can do, one constructor for each way, with
the state it leaves; `step_stepped` derives it from the step function once, so that invariants
are proved by cases on it. `Resumed` does the same for a resume of the host.
-/

namespace Keleusma

variable {F α β : Type} {env : Env F}

/-! ## Running programs of the machine -/

theorem bind_ok {m : Exec F α} {k : α → Exec F β} {s s' : Vm F} {b : β}
    (h : (m >>= k) s = .ok (b, s')) : ∃ a s₁, m s = .ok (a, s₁) ∧ k a s₁ = .ok (b, s') := by
  rcases hm : m s with e | ⟨a, s₁⟩
  · simp [Bind.bind, StateT.bind, hm, Except.bind] at h
  · simp only [Bind.bind, StateT.bind, hm, Except.bind] at h
    exact ⟨a, s₁, rfl, h⟩

theorem pop_ok {s s' : Vm F} {v : Value F} (h : pop s = .ok (v, s')) :
    s.stack.getLast? = some v ∧ s' = { s with stack := s.stack.dropLast } := by
  rw [pop_apply] at h
  split at h
  · cases h
  next w hw => cases h; exact ⟨hw, rfl⟩

theorem push_ok {s s' : Vm F} {v : Value F} {u : Unit} (h : push env v s = .ok (u, s')) :
    s' = { s with stack := s.stack ++ [v] } := by
  rw [push_apply] at h
  split at h <;> cases h
  rfl

theorem pushAll_ok {vs : List (Value F)} {s s' : Vm F} {u : Unit}
    (h : pushAll env vs s = .ok (u, s')) : s' = { s with stack := s.stack ++ vs } := by
  induction vs generalizing s with
  | nil =>
    cases h
    simp
  | cons v vs ih =>
    obtain ⟨_, s₁, hv, hvs⟩ := bind_ok h
    rw [ih hvs, push_ok hv]
    simp

theorem operandStart_ok {n k : ℕ} {s s' : Vm F} (h : operandStart n s = .ok (k, s')) :
    n ≤ s.stack.length ∧ k = s.stack.length - n ∧ s' = s := by
  rw [operandStart_apply] at h
  split at h
  next hn => cases h; exact ⟨hn, rfl, rfl⟩
  · cases h

theorem popBool_ok {s s' : Vm F} {b : Bool} {fault : String}
    (h : popBool fault s = .ok (b, s')) :
    s.stack.getLast? = some (.bool b) ∧ s' = { s with stack := s.stack.dropLast } := by
  obtain ⟨v, s₁, hpop, hb⟩ := bind_ok h
  obtain ⟨hv, rfl⟩ := pop_ok hpop
  split at hb
  · cases hb
    exact ⟨hv, rfl⟩
  · cases hb

theorem pushFrame_ok {s s' : Vm F} {f : CallFrame} {u : Unit}
    (h : pushFrame env f s = .ok (u, s')) : s' = { s with frames := f :: s.frames } := by
  change (if env.frameRoom s.frames.length = true then _ else _ : Exec F Unit) s = _ at h
  split at h
  · cases h; rfl
  · cases h

/-! ## Steps -/

/-- The machine with the innermost frame at another position. -/
def Vm.goto (s : Vm F) (f : CallFrame) (rest : List CallFrame) (ip : ℕ) : Vm F :=
  { s with frames := { f with ip } :: rest }

/-- What a frame that has ended hands over: to its caller, or to the host. -/
inductive Delivered (s : Vm F) (result : Value F) : Outcome F → Vm F → Prop
  | caller (hf : s.frames ≠ []) :
      Delivered s result .running { s with stack := s.stack ++ [result] }
  | host (hf : s.frames = []) (v : Value F) :
      Delivered s result (.finished v) { s with suspendedAtReset := false }

/-- What a successful step of the machine can do. -/
inductive Stepped (env : Env F) (s : Vm F) : Outcome F → Vm F → Prop
  | plain {f : CallFrame} {rest : List CallFrame} {op : Op} {s' : Vm F}
      (hf : s.frames = f :: rest) (hop : (env.ops f.chunkIdx)[f.ip]? = some op) (hp : op.Plain)
      (hexec : execOp env f.chunkIdx f.base op (s.goto f rest (f.ip + 1)) = .ok ((), s')) :
      Stepped env s .running s'
  | branch {f : CallFrame} {rest : List CallFrame} {op : Op} {t : ℕ} {b : Bool}
      (hf : s.frames = f :: rest) (hop : (env.ops f.chunkIdx)[f.ip]? = some op)
      (hb : s.stack.getLast? = some (.bool b)) {ip' : ℕ}
      (hip : op = .ifOp t ∧ ip' = (if b then f.ip + 1 else t) ∨
        op = .breakIf t ∧ ip' = if b then t else f.ip + 1) :
      Stepped env s .running { s.goto f rest ip' with stack := s.stack.dropLast }
  | jump {f : CallFrame} {rest : List CallFrame} {op : Op} {t : ℕ}
      (hf : s.frames = f :: rest) (hop : (env.ops f.chunkIdx)[f.ip]? = some op)
      (hj : op = .elseOp t ∨ op = .endLoop t ∨ op = .break t) :
      Stepped env s .running (s.goto f rest t)
  | mark {f : CallFrame} {rest : List CallFrame} {op : Op}
      (hf : s.frames = f :: rest) (hop : (env.ops f.chunkIdx)[f.ip]? = some op)
      (hm : op = .endIf ∨ (∃ t, op = .loop t) ∨ op = .stream) :
      Stepped env s .running (s.goto f rest (f.ip + 1))
  | reset {f : CallFrame} {rest : List CallFrame} {pos : ℕ}
      (hf : s.frames = f :: rest) (hop : (env.ops f.chunkIdx)[f.ip]? = some .reset)
      (hlen : env.chunkLocalCount f.chunkIdx = 0 ∨
        f.base + env.chunkLocalCount f.chunkIdx ≤ s.stack.length)
      (hpos : env.streamIp f.chunkIdx = some pos) :
      Stepped env s .reset { s.goto f rest (pos + 1) with
        stack := s.stack.take f.base ++ List.replicate (env.chunkLocalCount f.chunkIdx) .unit
        arena := s.arena.resetTop
        ephemeralOpaques := []
        suspendedAtReset := true }
  | call {f : CallFrame} {rest : List CallFrame} {idx n : ℕ}
      (hf : s.frames = f :: rest) (hop : (env.ops f.chunkIdx)[f.ip]? = some (.call idx n))
      (hidx : idx < env.module.chunks.length) (hn : n ≤ s.stack.length)
      (hlc : n ≤ env.chunkLocalCount idx) :
      Stepped env s .running { s with
        stack := s.stack ++ List.replicate (env.chunkLocalCount idx - n) .unit
        frames := ⟨idx, 0, s.stack.length - n⟩ :: { f with ip := f.ip + 1 } :: rest }
  | return {f : CallFrame} {rest : List CallFrame} {v : Value F} {o : Outcome F} {s' : Vm F}
      (hf : s.frames = f :: rest) (hop : (env.ops f.chunkIdx)[f.ip]? = some .return)
      (hv : s.stack.getLast? = some v)
      (hd : Delivered { s with stack := s.stack.dropLast.take f.base, frames := rest } v o s') :
      Stepped env s o s'
  | endOfChunk {f : CallFrame} {rest : List CallFrame} {o : Outcome F} {s' : Vm F}
      (hf : s.frames = f :: rest) (hop : (env.ops f.chunkIdx)[f.ip]? = none)
      (hd : Delivered { s with stack := s.stack.dropLast, frames := rest }
        (s.stack.getLast?.getD .unit) o s') :
      Stepped env s o s'
  | yield {f : CallFrame} {rest : List CallFrame} {v w : Value F}
      (hf : s.frames = f :: rest) (hop : (env.ops f.chunkIdx)[f.ip]? = some .yield)
      (hv : s.stack.getLast? = some v) :
      Stepped env s (.yielded w) { s.goto f rest (f.ip + 1) with
        stack := s.stack.dropLast
        suspendedAtReset := false }

theorem deliver_ok {result : Value F} {s s' : Vm F} {o : Outcome F}
    (h : deliver env result s = .ok (o, s')) : Delivered s result o s' := by
  change (if s.frames.isEmpty = true then _ else _ : Exec F (Outcome F)) s = _ at h
  split at h
  next he =>
    cases h
    exact .host (List.isEmpty_iff.mp he) _
  next he =>
    obtain ⟨_, s₁, hp, hr⟩ := bind_ok h
    cases hr
    rw [push_ok hp]
    exact .caller fun hn => he (by simp [hn])

theorem execReset_ok {f : CallFrame} {s s' : Vm F} {o : Outcome F}
    (h : execReset env f s = .ok (o, s')) :
    (env.chunkLocalCount f.chunkIdx = 0 ∨
      f.base + env.chunkLocalCount f.chunkIdx ≤ s.stack.length) ∧
    ∃ pos, env.streamIp f.chunkIdx = some pos ∧ o = .reset ∧
      (setIp (pos + 1) : Exec F Unit) { s with
        stack := s.stack.take f.base ++ List.replicate (env.chunkLocalCount f.chunkIdx) .unit
        arena := s.arena.resetTop
        ephemeralOpaques := []
        suspendedAtReset := true } = .ok ((), s') := by
  change (if env.chunkLocalCount f.chunkIdx ≠ 0 ∧
    s.stack.length < f.base + env.chunkLocalCount f.chunkIdx then _ else _ :
    Exec F (Outcome F)) s = _ at h
  split at h
  · cases h
  next hlen =>
    obtain ⟨_, s₁, hm, hr⟩ := bind_ok h
    cases hm
    cases hpos : env.streamIp f.chunkIdx with
    | none =>
      rw [hpos] at hr
      cases hr
    | some pos =>
      rw [hpos] at hr
      obtain ⟨_, s₂, hset, hr⟩ := bind_ok hr
      obtain ⟨_, s₃, hm, hr⟩ := bind_ok hr
      cases hset
      cases hm
      cases hr
      refine ⟨by omega, pos, rfl, rfl, ?_⟩
      dsimp only [setIp, modify, modifyGet, MonadStateOf.modifyGet, StateT.modifyGet, pure,
        Except.pure]
      cases s.frames <;> rfl

theorem execCall_ok {idx n : ℕ} {s s' : Vm F} {o : Outcome F}
    (h : execCall env idx n s = .ok (o, s')) :
    idx < env.module.chunks.length ∧ n ≤ s.stack.length ∧ n ≤ env.chunkLocalCount idx ∧
    o = .running ∧ s' = { s with
      stack := s.stack ++ List.replicate (env.chunkLocalCount idx - n) .unit
      frames := ⟨idx, 0, s.stack.length - n⟩ :: s.frames } := by
  unfold execCall at h
  split at h
  · cases h
  next hidx =>
    obtain ⟨start, s₁, hstart, h⟩ := bind_ok h
    obtain ⟨hn, rfl, rfl⟩ := operandStart_ok hstart
    split at h
    · cases h
    next hlc =>
      obtain ⟨_, s₂, hpush, h⟩ := bind_ok h
      obtain ⟨_, s₃, hframe, h⟩ := bind_ok h
      cases h
      rw [pushFrame_ok hframe, pushAll_ok hpush]
      exact ⟨by omega, hn, by omega, rfl, rfl⟩

theorem execReturn_ok {f : CallFrame} {s s' : Vm F} {o : Outcome F}
    (h : execReturn env f s = .ok (o, s')) : ∃ v, s.stack.getLast? = some v ∧
      Delivered { s with stack := s.stack.dropLast.take f.base, frames := s.frames.tail } v o s' :=
        by
  obtain ⟨v, s₁, hpop, h⟩ := bind_ok h
  obtain ⟨hv, rfl⟩ := pop_ok hpop
  exact ⟨v, hv, deliver_ok h⟩

theorem execYield_ok {s s' : Vm F} {o : Outcome F} (h : execYield s = .ok (o, s')) :
    ∃ v w, s.stack.getLast? = some v ∧ o = .yielded w ∧
      s' = { s with stack := s.stack.dropLast, suspendedAtReset := false } := by
  obtain ⟨v, s₁, hpop, h⟩ := bind_ok h
  obtain ⟨hv, rfl⟩ := pop_ok hpop
  obtain ⟨s₂, s₃, hs, h⟩ := bind_ok h
  cases hs
  split at h
  · cases h
  · cases h
    exact ⟨v, _, hv, rfl, rfl⟩

theorem endOfChunk_ok {s s' : Vm F} {o : Outcome F} (h : endOfChunk env s = .ok (o, s')) :
    Delivered { s with stack := s.stack.dropLast, frames := s.frames.tail }
      (s.stack.getLast?.getD .unit) o s' :=
  deliver_ok h

/-- A plain instruction is executed by its handler. -/
theorem execInstr_plain {f : CallFrame} {op : Op} (hp : op.Plain) :
    execInstr env f op = (do execOp env f.chunkIdx f.base op; return .running) := by
  cases op <;> first | rfl | exact hp.elim

/-- A step executes the instruction that the innermost frame has reached. -/
theorem step_op {s s' : Vm F} {o : Outcome F} {f : CallFrame} {rest : List CallFrame} {op : Op}
    (hf : s.frames = f :: rest) (hop : (env.ops f.chunkIdx)[f.ip]? = some op)
    (h : step env s = .ok (o, s')) :
    execInstr env f op (s.goto f rest (f.ip + 1)) = .ok (o, s') := by
  simpa [step, Bind.bind, StateT.bind, get, getThe, MonadStateOf.get, StateT.get, pure,
    Except.pure, Except.bind, hf, hop, setIp, modify, modifyGet, MonadStateOf.modifyGet,
    StateT.modifyGet, Vm.goto] using h

/-- A step needs a frame, and ends it behind its last instruction. -/
theorem step_end {s s' : Vm F} {o : Outcome F} (h : step env s = .ok (o, s'))
    (hend : ∀ f rest, s.frames = f :: rest → (env.ops f.chunkIdx)[f.ip]? = none) :
    s.frames ≠ [] ∧ endOfChunk env s = .ok (o, s') := by
  cases hf : s.frames with
  | nil =>
    simp [step, Bind.bind, StateT.bind, get, getThe, MonadStateOf.get, StateT.get, pure,
      Except.pure, Except.bind, hf, throw, throwThe, MonadExceptOf.throw, StateT.lift] at h
  | cons f rest =>
    refine ⟨List.cons_ne_nil _ _, ?_⟩
    simpa [step, Bind.bind, StateT.bind, get, getThe, MonadStateOf.get, StateT.get, pure,
      Except.pure, Except.bind, hf, hend f rest hf] using h

/-- **A successful step does one of the things that `Stepped` lists.** -/
theorem step_stepped {s s' : Vm F} {o : Outcome F} (h : step env s = .ok (o, s')) :
    Stepped env s o s' := by
  cases hf : s.frames with
  | nil => exact absurd hf (step_end h fun f rest hcons => by rw [hf] at hcons; cases hcons).1
  | cons f rest =>
    cases hop : (env.ops f.chunkIdx)[f.ip]? with
    | none =>
      have hd := endOfChunk_ok (step_end h fun g rest' hcons => by
        rw [hf] at hcons
        cases hcons
        exact hop).2
      rw [hf] at hd
      exact .endOfChunk hf hop hd
    | some op =>
      have h := step_op hf hop h
      by_cases hp : op.Plain
      · rw [execInstr_plain hp] at h
        obtain ⟨_, s₁, hexec, hr⟩ := bind_ok h
        cases hr
        exact .plain hf hop hp hexec
      · cases op with
        | ifOp t =>
          obtain ⟨b, s₁, hpop, hr⟩ := bind_ok h
          obtain ⟨hb, rfl⟩ := popBool_ok hpop
          cases b
          · cases hr
            exact .branch hf hop hb (.inl ⟨rfl, rfl⟩)
          · cases hr
            exact .branch hf hop hb (.inl ⟨rfl, rfl⟩)
        | breakIf t =>
          obtain ⟨b, s₁, hpop, hr⟩ := bind_ok h
          obtain ⟨hb, rfl⟩ := popBool_ok hpop
          cases b
          · cases hr
            exact .branch hf hop hb (.inr ⟨rfl, rfl⟩)
          · cases hr
            exact .branch hf hop hb (.inr ⟨rfl, rfl⟩)
        | elseOp t => cases h; exact .jump (f := f) hf hop (.inl rfl)
        | endLoop t => cases h; exact .jump (f := f) hf hop (.inr (.inl rfl))
        | «break» t => cases h; exact .jump (f := f) hf hop (.inr (.inr rfl))
        | endIf => cases h; exact .mark hf hop (.inl rfl)
        | loop t => cases h; exact .mark hf hop (.inr (.inl ⟨t, rfl⟩))
        | stream => cases h; exact .mark hf hop (.inr (.inr rfl))
        | reset =>
          obtain ⟨hlen, pos, hpos, rfl, hset⟩ := execReset_ok h
          cases hset
          exact .reset hf hop hlen hpos
        | call idx n =>
          obtain ⟨hidx, hn, hlc, rfl, rfl⟩ := execCall_ok h
          exact .call hf hop hidx hn hlc
        | «return» =>
          obtain ⟨v, hv, hd⟩ := execReturn_ok h
          exact .return hf hop hv hd
        | yield =>
          obtain ⟨v, w, hv, rfl, rfl⟩ := execYield_ok h
          exact .yield hf hop hv
        | _ => exact absurd trivial hp

/-! ## The view without values

Most invariants speak of the frames and of the height of the stack only. -/

/-- The stack `new` is the stack `old` with the top `p` entries replaced by `q` others. -/
structure Replaced {V : Type} (p q : ℕ) (old new : List V) : Prop where
  enough : p ≤ old.length
  length : new.length = old.length - p + q

/-- The first `n` entries of the stacks agree. -/
def SameBelow {V : Type} (n : ℕ) (old new : List V) : Prop := new.take n = old.take n

theorem SameBelow.mono {V : Type} {old new : List V} {m n : ℕ} (h : SameBelow n old new)
    (hmn : m ≤ n) : SameBelow m old new := by
  have := congrArg (List.take m) h
  rwa [List.take_take, List.take_take, Nat.min_eq_left hmn] at this

/-- The entries that an instruction leaves alone: those below its operands, and for `SetLocal`
those below its slot. -/
def Op.keeps (base height : ℕ) : Op → ℕ
  | .setLocal slot => min (height - 1) (base + slot)
  | op => height - opRequires op

/-- A step within the innermost frame: the frame goes to another position, and the instruction
takes and leaves its operands. -/
structure Advanced (env : Env F) (s s' : Vm F) (f : CallFrame) (rest : List CallFrame) (op : Op)
    (ip' : ℕ) : Prop where
  frames : s.frames = f :: rest
  op_at : (env.ops f.chunkIdx)[f.ip]? = some op
  next : ip' ∈ op.next f.ip
  frames' : s'.frames = { f with ip := ip' } :: rest
  replaced : Replaced (opRequires op) (op.results env) s.stack s'.stack
  below : SameBelow (op.keeps f.base s.stack.length) s.stack s'.stack
  started : s'.started = s.started
  suspended : s'.suspendedAtReset = s.suspendedAtReset

/-- A plain instruction keeps the frames, and the stack below its operands. -/
theorem execOp_ok {f : CallFrame} {op : Op} {s s' : Vm F} (hp : op.Plain)
    (h : execOp env f.chunkIdx f.base op s = .ok ((), s')) :
    Replaced (opRequires op) (op.results env) s.stack s'.stack ∧
      SameBelow (op.keeps f.base s.stack.length) s.stack s'.stack ∧
      s'.frames = s.frames ∧ s'.started = s.started ∧
      s'.suspendedAtReset = s.suspendedAtReset := by
  by_cases hset : ∃ slot, op = .setLocal slot
  · obtain ⟨slot, rfl⟩ := hset
    obtain ⟨v, hv, hslot, rfl⟩ := execOp_setLocal h
    have hpos : 0 < s.stack.length := by omega
    refine ⟨⟨hpos, by simp [Op.results, opProduces, opRequires, opDepthEffect]⟩, ?_, rfl, rfl, rfl⟩
    show List.take (min (s.stack.length - 1) (f.base + slot)) (s.stack.dropLast.set (f.base + slot) v) =
      List.take (min (s.stack.length - 1) (f.base + slot)) s.stack
    rw [List.take_set_of_le (Nat.min_le_right _ _), List.dropLast_eq_take, List.take_take]
    congr 1
    omega
  · have hne : ∀ slot, op ≠ .setLocal slot := fun slot he => hset ⟨slot, he⟩
    obtain ⟨hle, hlen, htake, hkeep⟩ :=
      (effect_execOp f.chunkIdx f.base op hp hne).ok s () s' h
    have hk : op.keeps f.base s.stack.length = s.stack.length - opRequires op := by
      cases op <;> first | rfl | exact absurd rfl (hne _)
    simp only [Prod.mk.injEq] at hkeep
    refine ⟨⟨hle, hlen⟩, ?_, hkeep.1, hkeep.2.1, hkeep.2.2⟩
    rw [hk]
    exact htake

/-- The instructions that neither suspend the frame nor change which frame is innermost. -/
def Op.Stays : Op → Prop
  | .reset | .return | .yield | .call _ _ => False
  | _ => True

/-- The ways in which a step changes the frames. -/
inductive Moved (env : Env F) (s : Vm F) : Outcome F → Vm F → Prop
  | advance {f : CallFrame} {rest : List CallFrame} {op : Op} {ip' : ℕ} {s' : Vm F}
      (h : Advanced env s s' f rest op ip') (hstays : op.Stays) : Moved env s .running s'
  | reset {f : CallFrame} {rest : List CallFrame} {pos : ℕ} {s' : Vm F}
      (hf : s.frames = f :: rest) (hop : (env.ops f.chunkIdx)[f.ip]? = some .reset)
      (hlen : env.chunkLocalCount f.chunkIdx = 0 ∨
        f.base + env.chunkLocalCount f.chunkIdx ≤ s.stack.length)
      (hpos : env.streamIp f.chunkIdx = some pos)
      (hf' : s'.frames = { f with ip := pos + 1 } :: rest)
      (hstack : s'.stack =
        s.stack.take f.base ++ List.replicate (env.chunkLocalCount f.chunkIdx) .unit)
      (hsus : s'.suspendedAtReset = true) (hstart : s'.started = s.started) : Moved env s .reset s'
  | call {f : CallFrame} {rest : List CallFrame} {idx n : ℕ} {s' : Vm F}
      (hf : s.frames = f :: rest) (hop : (env.ops f.chunkIdx)[f.ip]? = some (.call idx n))
      (hidx : idx < env.module.chunks.length) (hn : n ≤ s.stack.length)
      (hlc : n ≤ env.chunkLocalCount idx)
      (hf' : s'.frames = ⟨idx, 0, s.stack.length - n⟩ :: { f with ip := f.ip + 1 } :: rest)
      (hstack : s'.stack = s.stack ++ List.replicate (env.chunkLocalCount idx - n) .unit)
      (hsus : s'.suspendedAtReset = s.suspendedAtReset) (hstart : s'.started = s.started) :
      Moved env s .running s'
  | returnTo {f : CallFrame} {rest : List CallFrame} {v : Value F} {s' : Vm F}
      (hf : s.frames = f :: rest) (hop : (env.ops f.chunkIdx)[f.ip]? = some .return)
      (hv : s.stack.getLast? = some v) (hrest : rest ≠ []) (hf' : s'.frames = rest)
      (hstack : s'.stack = s.stack.dropLast.take f.base ++ [v])
      (hsus : s'.suspendedAtReset = s.suspendedAtReset) (hstart : s'.started = s.started) :
      Moved env s .running s'
  | runOffTo {f : CallFrame} {rest : List CallFrame} {s' : Vm F}
      (hf : s.frames = f :: rest) (hop : (env.ops f.chunkIdx)[f.ip]? = none)
      (hrest : rest ≠ []) (hf' : s'.frames = rest)
      (hstack : s'.stack = s.stack.dropLast ++ [s.stack.getLast?.getD .unit])
      (hsus : s'.suspendedAtReset = s.suspendedAtReset) (hstart : s'.started = s.started) :
      Moved env s .running s'
  | finish {f : CallFrame} {v : Value F} {s' : Vm F} (hf : s.frames = [f])
      (hop : (env.ops f.chunkIdx)[f.ip]? = some .return ∨ (env.ops f.chunkIdx)[f.ip]? = none)
      (hf' : s'.frames = []) : Moved env s (.finished v) s'
  | yield {f : CallFrame} {rest : List CallFrame} {v w : Value F} {s' : Vm F}
      (hf : s.frames = f :: rest) (hop : (env.ops f.chunkIdx)[f.ip]? = some .yield)
      (hv : s.stack.getLast? = some v) (hf' : s'.frames = { f with ip := f.ip + 1 } :: rest)
      (hstack : s'.stack = s.stack.dropLast) (hsus : s'.suspendedAtReset = false)
      (hstart : s'.started = s.started) : Moved env s (.yielded w) s'

theorem ne_nil_of_getLast? {v : Value F} {l : List (Value F)} (h : l.getLast? = some v) :
    0 < l.length :=
  List.length_pos_iff.mpr fun he => by simp [he] at h

theorem Stepped.moved {s s' : Vm F} {o : Outcome F} (h : Stepped env s o s') : Moved env s o s' :=
  by
  cases h with
  | @plain f rest op s' hf hop hp hexec =>
    obtain ⟨hr, hb, hfr, hst, hsus⟩ := execOp_ok hp hexec
    have hstays : op.Stays := by
      cases op <;> trivial
    have hnext : f.ip + 1 ∈ op.next f.ip := by
      cases op <;> first
        | exact List.mem_singleton_self _ | exact hp.elim | exact absurd hexec execTrap_ne_ok
    exact .advance ⟨hf, hop, hnext, hfr, hr, hb, hst, hsus⟩ hstays
  | @branch f rest op t b hf hop hb ip' hip =>
    have hpos := ne_nil_of_getLast? hb
    have hr : ∀ op : Op, opRequires op = 1 → op.results env = 0 →
        Replaced (opRequires op) (op.results env) s.stack s.stack.dropLast := fun op h₁ h₀ => by
      rw [h₁, h₀]
      exact ⟨hpos, by simp⟩
    have hbelow : SameBelow (s.stack.length - 1) s.stack s.stack.dropLast := by
      show List.take _ _ = List.take _ _
      rw [List.dropLast_eq_take, List.take_take, Nat.min_self]
    rcases hip with ⟨rfl, rfl⟩ | ⟨rfl, rfl⟩
    · refine .advance ⟨hf, hop, ?_, rfl, hr _ rfl rfl, hbelow, rfl, rfl⟩ trivial
      cases b
      · exact List.mem_cons_of_mem _ (List.mem_singleton_self _)
      · exact List.mem_cons_self
    · refine .advance ⟨hf, hop, ?_, rfl, hr _ rfl rfl, hbelow, rfl, rfl⟩ trivial
      cases b
      · exact List.mem_cons_self
      · exact List.mem_cons_of_mem _ (List.mem_singleton_self _)
  | @jump f rest op t hf hop hj =>
    have hr : Replaced 0 0 s.stack s.stack := ⟨Nat.zero_le _, rfl⟩
    rcases hj with rfl | rfl | rfl <;>
      exact .advance ⟨hf, hop, List.mem_singleton_self _, rfl, hr, rfl, rfl, rfl⟩ trivial
  | @mark f rest op hf hop hm =>
    have hr : Replaced 0 0 s.stack s.stack := ⟨Nat.zero_le _, rfl⟩
    rcases hm with rfl | ⟨t, rfl⟩ | rfl <;>
      exact .advance ⟨hf, hop, List.mem_singleton_self _, rfl, hr, rfl, rfl, rfl⟩ trivial
  | reset hf hop hlen hpos => exact .reset hf hop hlen hpos rfl rfl rfl rfl
  | call hf hop hidx hn hlc => exact .call hf hop hidx hn hlc rfl rfl rfl rfl
  | «return» hf hop hv hd =>
    cases hd with
    | caller hrest => exact .returnTo hf hop hv hrest rfl rfl rfl rfl
    | host hrest v =>
      dsimp only at hrest
      subst hrest
      exact .finish hf (.inl hop) rfl
  | endOfChunk hf hop hd =>
    cases hd with
    | caller hrest => exact .runOffTo hf hop hrest rfl rfl rfl rfl
    | host hrest v =>
      dsimp only at hrest
      subst hrest
      exact .finish hf (.inr hop) rfl
  | yield hf hop hv => exact .yield hf hop hv rfl rfl rfl rfl

/-- **What a successful step does to the frames.** -/
theorem step_moved {s s' : Vm F} {o : Outcome F} (h : step env s = .ok (o, s')) :
    Moved env s o s' :=
  (step_stepped h).moved

end Keleusma
