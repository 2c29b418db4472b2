import Keleusma.Logic.Stages
import Keleusma.Runtime.Hosting
import Keleusma.Safety.Monitor

/-!
# Host entries that are refused

Before the machine runs, an entry of the host is prepared stage by stage. `HostEntry.stages` lists
the stages of a call and of a resume in the order of the source; together they are `callFunction`
and `resume` (`callAfterEnter_run`, `resumeAfterEnter_run`), and they say also what an entry that is
refused leaves behind.

A resume checks its value before it writes it anywhere. A call pushes each argument before it looks
at the next one, so that the arguments before the one that is refused stay on the operand stack.
`refused_undisturbed_iff` says exactly which refused entries leave the machine as it was.
-/

namespace Keleusma

variable {F α : Type} {env : Env F} {c : ℕ} {args : List (Value F)} {e : VmError} {s s' vm : Vm F}

/-! ## Stages -/

/-- The checks of a call before its arguments are prepared. -/
def admitCall (env : Env F) (chunkIdx : ℕ) (args : List (Value F)) : Exec F Chunk :=
  if !verifyNativeClassifications env then
    throw (.invalidBytecode "native classification mismatch")
  else
    match env.chunk? chunkIdx with
    | none => throw (.invalidBytecode s!"invalid chunk index: {chunkIdx}")
    | some chunk =>
      if args.length ≠ chunk.paramCount then
        throw (.typeError (countRefusal chunk.name chunk.paramCount args.length))
      else if !argumentsAdmitted chunk.paramTypes args then
        throw (.typeError (argumentRefusal chunk.name 0 chunk.paramTypes args))
      else return chunk

/-- The declared shape of a parameter. -/
def paramShape (env : Env F) (chunkIdx i : ℕ) : WireShape :=
  ((env.module.signatures[chunkIdx]?).bind fun s => s.params[i]?).getD .top

/-- The declared shape of the values that the outermost chunk is resumed with. -/
def resumeShape (env : Env F) (frames : List CallFrame) : WireShape :=
  (frames.getLast?.bind fun f => env.module.signatures[f.chunkIdx]?).elim WireShape.top (·.resume)

/-- Refuse a host composite of another shape. -/
def requireShape (shape : WireShape) (v : Value F) : Exec F Unit :=
  if checkHostCompositeShape v shape then return
  else throw (.typeError "a host composite must have the script's field order and field types")

/-- Prepare and push the arguments from parameter `i` on. -/
def argumentStages (env : Env F) (chunkIdx : ℕ) (next : Stages (Vm F) VmError) :
    ℕ → List (Value F) → Stages (Vm F) VmError
  | _, [] => next
  | i, arg :: args =>
    .stage (admitHostValue env "composite argument" arg) fun v =>
    .stage (requireShape (paramShape env chunkIdx i) v) fun _ =>
    .stage (inRegistry v.internOpaqueArcs) fun v =>
    .stage (push env v) fun _ => argumentStages env chunkIdx next (i + 1) args

/-- Push the remaining local slots. -/
def localStages (env : Env F) (next : Stages (Vm F) VmError) :
    List (Value F) → Stages (Vm F) VmError
  | [] => next
  | v :: vs => .stage (push env v) fun _ => localStages env next vs

/-- Enter the frame of a call. -/
def frameStages (env : Env F) (f : CallFrame) : Stages (Vm F) VmError :=
  .stage (pushFrame env f) fun _ =>
  .stage (modify fun s => { s with started := true }) fun _ => .done

/-- Complete the local slots of a call and enter its frame. -/
def enterStages (env : Env F) (chunkIdx : ℕ) (chunk : Chunk) (argCount base : ℕ) :
    Stages (Vm F) VmError :=
  .stage (if chunk.localCount < argCount then throw (.panicked "attempt to subtract with overflow")
    else return) fun () =>
  localStages env (frameStages env ⟨chunkIdx, 0, base⟩)
    (List.replicate (chunk.localCount - argCount) .unit)

/-- Call a chunk, when the shared buffer is bound. -/
def callAfterEnter (env : Env F) (chunkIdx : ℕ) (args : List (Value F)) : Stages (Vm F) VmError :=
  .stage (admitCall env chunkIdx args) fun chunk =>
  .stage get fun vm =>
  argumentStages env chunkIdx (enterStages env chunkIdx chunk args.length vm.stack.length) 0 args

/-- Refuse to resume a machine that is not suspended. -/
def requireSuspended : Exec F (Vm F) := do
  let s ← get
  if !s.started || s.frames.isEmpty then throw .notSuspended else return s

/-- Continue a suspended machine, when the shared buffer is bound. -/
def resumeAfterEnter (env : Env F) (input : Value F) : Stages (Vm F) VmError :=
  .stage requireSuspended fun vm =>
  .stage (admitHostValue env "composite resume value" input) fun v =>
  .stage (requireShape (resumeShape env vm.frames) v) fun _ =>
  .stage (inRegistry v.internOpaqueArcs) fun v =>
  .stage (writeStreamParameter env v) fun _ =>
  .stage (if vm.suspendedAtReset then return else push env v) fun () => .done

/-- What a host asks of the machine. -/
inductive HostEntry (F : Type)
  | call (shared : List UInt8) (args : List (Value F))
  | callFunction (chunkIdx : ℕ) (args : List (Value F))
  | resume (shared : List UInt8) (input : Value F)

/-- The stages of an entry before the first instruction. -/
def HostEntry.stages (env : Env F) : HostEntry F → Stages (Vm F) VmError
  | .call shared args =>
    .stage (enterShared env shared) fun _ =>
    .stage (match env.module.entryPoint with
      | some entry => return entry
      | none => throw (.invalidBytecode "no entry point")) fun entry =>
    callAfterEnter env entry args
  | .callFunction chunkIdx args =>
    .stage (modify fun s => { s with sharedBuf := none }) fun _ => callAfterEnter env chunkIdx args
  | .resume shared input =>
    .stage (enterShared env shared) fun _ => resumeAfterEnter env input

/-! ## The stages together -/

/-- A program that has nothing to do before the next. -/
theorem pure_unit_bind (m : Exec F Unit) : ((pure () : Exec F Unit) >>= fun _ => m) = m :=
  pure_bind () fun _ => m

theorem argumentStages_run {next : Stages (Vm F) VmError} {i : ℕ} :
    (argumentStages env c next i args).run = (do pushArguments env c i args; next.run) := by
  induction args generalizing i with
  | nil => exact (pure_unit_bind next.run).symm
  | cons arg args ih =>
    simp only [argumentStages, Stages.run, pushArguments, pushArgument, bind_assoc, ih]
    refine bind_congr fun v => ?_
    unfold requireShape paramShape
    split
    · simp only [pure_bind, bind_assoc]
    · rfl

theorem localStages_run {next : Stages (Vm F) VmError} {vs : List (Value F)} :
    (localStages env next vs).run = (do pushAll env vs; next.run) := by
  induction vs with
  | nil => exact (pure_unit_bind next.run).symm
  | cons v vs ih => simp only [localStages, Stages.run, pushAll, bind_assoc, ih]

/-- The stages of a call are those of `callFunction`. -/
theorem callAfterEnter_run (shared : List UInt8) :
    (do enterShared env shared; (callAfterEnter env c args).run) =
      callFunction env c shared args := by
  unfold callAfterEnter callFunction admitCall
  refine bind_congr fun _ => ?_
  simp only [Stages.run, argumentStages_run, enterStages, localStages_run, frameStages]
  split
  · rfl
  cases env.chunk? c with
  | none => rfl
  | some chunk =>
    by_cases hcount : args.length = chunk.paramCount
    · by_cases hadmitted : argumentsAdmitted chunk.paramTypes args = true
      · simp only [hcount, hadmitted, ne_eq, not_true_eq_false, if_false, Bool.not_true,
          Bool.false_eq_true, pure_bind]
        refine bind_congr fun vm => bind_congr fun _ => ?_
        split
        · rfl
        · simp only [pure_bind, bind_pure_unit]
      · simp only [hcount, hadmitted, ne_eq, not_true_eq_false, if_false, Bool.not_false, if_true]
        rfl
    · simp only [hcount, ne_eq, not_false_eq_true, if_true]
      rfl

/-- The stages of a resume are those of `resume`. -/
theorem resumeAfterEnter_run (shared : List UInt8) (input : Value F) :
    (do enterShared env shared; (resumeAfterEnter env input).run) = resume env shared input := by
  unfold resumeAfterEnter resume requireSuspended
  refine bind_congr fun _ => ?_
  simp only [Stages.run, bind_assoc]
  refine bind_congr fun vm => ?_
  split
  · rfl
  simp only [pure_bind]
  refine bind_congr fun v => ?_
  unfold requireShape resumeShape
  split
  next hshape => simp only [hshape, pure_bind, Bool.not_true, Bool.false_eq_true, if_false,
    bind_pure_unit]
  next hshape =>
    simp only [hshape, Bool.not_false, if_true]
    rfl

/-! ## What a stage leaves alone -/

/-- The operand stack with the local slots, the frames, the private data and the flags of the
machine are what they were. -/
structure Vm.Undisturbed (s s' : Vm F) : Prop where
  stack : s'.stack = s.stack
  frames : s'.frames = s.frames
  privateData : s'.privateData = s.privateData
  started : s'.started = s.started
  suspendedAtReset : s'.suspendedAtReset = s.suspendedAtReset

theorem Vm.Undisturbed.refl (s : Vm F) : s.Undisturbed s := ⟨rfl, rfl, rfl, rfl, rfl⟩

/-- What is left undisturbed may be counted from either machine. -/
theorem Vm.Undisturbed.congr (h : s.Undisturbed s') {t : Vm F} :
    s.Undisturbed t ↔ s'.Undisturbed t := by
  obtain ⟨hstack, hframes, hdata, hstarted, hreset⟩ := h
  constructor
  · rintro ⟨h₁, h₂, h₃, h₄, h₅⟩
    exact ⟨h₁.trans hstack.symm, h₂.trans hframes.symm, h₃.trans hdata.symm,
      h₄.trans hstarted.symm, h₅.trans hreset.symm⟩
  · rintro ⟨h₁, h₂, h₃, h₄, h₅⟩
    exact ⟨h₁.trans hstack, h₂.trans hframes, h₃.trans hdata, h₄.trans hstarted, h₅.trans hreset⟩

theorem Vm.Undisturbed.of_eq {t : Vm F} (heq : t = s') (h : s.Undisturbed s') : s.Undisturbed t :=
  heq ▸ h

theorem enterShared_apply (shared : List UInt8) (s : Vm F) : enterShared env shared s =
    if shared.length ≠ env.module.sharedDataBytes then
      .error (.nativeError "shared data buffer has not the declared length")
    else .ok ((), { s with sharedBuf := if shared.isEmpty then none else some shared }) := by
  unfold enterShared
  split <;> rfl

/-- The canonical form of a host value in an arena. -/
def canonicalIn (env : Env F) (a : Arena) (v : Value F) : Option (Value F × Arena) :=
  intoArenaCanonical env.fo env.widths (v.correctNativeEnumHints env.module.enumLayouts) a

theorem inArena_apply (region : String) (m : ArenaM α) (s : Vm F) : inArena region m s =
    match m s.arena with
    | none => .error (.outOfArena region)
    | some (x, arena) => .ok (x, { s with arena }) := by
  unfold inArena
  simp only [bind, StateT.bind, get, getThe, MonadStateOf.get, StateT.get, Except.bind, pure,
    Except.pure]
  cases m s.arena <;> rfl

theorem admitHostValue_apply (region : String) (v : Value F) (s : Vm F) :
    admitHostValue env region v s = match canonicalIn env s.arena v with
      | none => .error (.outOfArena region)
      | some (w, arena) => .ok (w, { s with arena }) := by
  have h : admitHostValue env region v s = _ :=
    inArena_apply region (fun a => canonicalIn env a v) s
  rw [h]
  cases canonicalIn env s.arena v <;> rfl

theorem requireShape_apply (shape : WireShape) (v : Value F) (s : Vm F) :
    requireShape shape v s = if checkHostCompositeShape v shape then .ok ((), s)
      else .error
        (.typeError "a host composite must have the script's field order and field types") := by
  unfold requireShape
  split <;> rfl

theorem inRegistry_apply (m : StateM (List ℕ) α) (s : Vm F) : inRegistry m s =
    .ok ((m s.ephemeralOpaques).1, { s with ephemeralOpaques := (m s.ephemeralOpaques).2 }) := rfl

theorem requireSuspended_apply (s : Vm F) : requireSuspended s =
    if !s.started || s.frames.isEmpty then .error .notSuspended else .ok (s, s) := by
  change (if (!s.started || s.frames.isEmpty) = true then _ else _ : Exec F (Vm F)) s = _
  split <;> rfl

theorem admitCall_ok {chunk : Chunk} (h : admitCall env c args s = .ok (chunk, s')) :
    s' = s ∧ verifyNativeClassifications env = true ∧ env.chunk? c = some chunk ∧
      args.length = chunk.paramCount ∧ argumentsAdmitted chunk.paramTypes args = true := by
  unfold admitCall at h
  split at h
  · cases h
  next hnative =>
    cases hchunk : env.chunk? c with
    | none =>
      rw [hchunk] at h
      cases h
    | some chunk' =>
      rw [hchunk] at h
      dsimp only at h
      split at h
      · cases h
      next hcount =>
        split at h
        · cases h
        next hadmitted =>
          cases h
          exact ⟨rfl, by simpa using hnative, rfl, not_not.mp hcount, by simpa using hadmitted⟩

theorem admitCall_of {chunk : Chunk} (hnative : verifyNativeClassifications env = true)
    (hchunk : env.chunk? c = some chunk) (hcount : args.length = chunk.paramCount)
    (hadmitted : argumentsAdmitted chunk.paramTypes args = true) :
    admitCall env c args s = .ok (chunk, s) := by
  unfold admitCall
  simp only [hnative, hchunk, hcount, hadmitted, Bool.not_true, Bool.false_eq_true, if_false, ne_eq,
    not_true_eq_false]
  rfl

/-- The first parameter of a chunk admits the value. -/
def paramAdmits (env : Env F) (chunkIdx : ℕ) (v : Value F) : Bool :=
  (env.chunk? chunkIdx).all fun chunk => chunk.paramTypes[0]?.all (·.admits v)

/-- The parameter of a stream is written when it admits the value. -/
theorem writeStreamParameter_apply (v : Value F) (s : Vm F) : ∃ message,
    writeStreamParameter env v s = match paramFrame env s.frames with
      | none => .ok ((), s)
      | some f =>
        if paramAdmits env f.chunkIdx v then
          if f.base < s.stack.length then .ok ((), { s with stack := s.stack.set f.base v })
          else .error (.panicked "index out of bounds")
        else .error (.typeError message) := by
  change ∃ message, (match resumeFrame env s.frames with
    | none => return
    | some f =>
      match env.chunk? f.chunkIdx with
      | none => return
      | some c =>
        if c.blockType == .stream && 0 < c.paramCount then
          if (c.paramTypes[0]?).all (·.admits v) then writeLocal f.base v
          else throw (.typeError (resumeRefusal c.name c.paramTypes[0]? v))
        else return : Exec F Unit) s = _
  unfold paramFrame paramAdmits
  cases resumeFrame env s.frames with
  | none => exact ⟨"", rfl⟩
  | some f =>
    dsimp only
    cases hc : env.chunk? f.chunkIdx with
    | none => exact ⟨"", by simp [Option.filter, hc]; rfl⟩
    | some c =>
      refine ⟨resumeRefusal c.name c.paramTypes[0]? v, ?_⟩
      dsimp only
      simp only [Option.filter, hc, Option.any_some]
      split
      next =>
        dsimp only
        rw [hc]
        dsimp only [Option.all_some]
        split
        · exact writeLocal_apply ..
        · rfl
      · rfl

/-! ## Stacks that grow -/

/-- The second stack is no lower. -/
def Vm.StackLe (s s' : Vm F) : Prop := s.stack.length ≤ s'.stack.length

instance : IsPreorder (Vm F) Vm.StackLe where
  refl s := le_refl s.stack.length
  trans _ _ _ h h' := le_trans h h'

theorem stackLe_push {v : Value F} {u : Unit} (h : push env v s = .ok (u, s')) : s.StackLe s' := by
  rw [push_ok h]
  simp [Vm.StackLe]

theorem raises_argumentStages {next : Stages (Vm F) VmError} (hnext : next.Raises Vm.StackLe)
    {i : ℕ} : (argumentStages env c next i args).Raises Vm.StackLe := by
  induction args generalizing i with
  | nil => exact hnext
  | cons arg args ih =>
    refine .stage (fun s v s' h => ?_) fun v => .stage (fun s _ s' h => ?_) fun _ =>
      .stage (fun s w s' h => ?_) fun w => .stage (fun s _ s' h => stackLe_push h) fun _ => ih
    · rw [admitHostValue_apply] at h
      split at h
      · cases h
      · cases h
        exact le_refl _
    · rw [requireShape_apply] at h
      split at h
      · cases h
        exact le_refl _
      · cases h
    · rw [inRegistry_apply] at h
      cases h
      exact le_refl _

theorem raises_localStages {next : Stages (Vm F) VmError} (hnext : next.Raises Vm.StackLe)
    (vs : List (Value F)) : (localStages env next vs).Raises Vm.StackLe := by
  induction vs with
  | nil => exact hnext
  | cons v vs ih => exact .stage (fun s _ s' h => stackLe_push h) fun _ => ih

theorem raises_frameStages (f : CallFrame) : (frameStages env f).Raises Vm.StackLe := by
  refine .stage (fun s _ s' h => ?_) fun _ => .stage (fun s _ s' h => ?_) fun _ s => le_refl _
  · rw [pushFrame_ok h]
    exact le_refl _
  · cases h
    exact le_refl _

theorem raises_enterStages (chunk : Chunk) (argCount base : ℕ) :
    (enterStages env c chunk argCount base).Raises Vm.StackLe := by
  refine .stage (fun s _ s' h => ?_) fun _ => raises_localStages (raises_frameStages _) _
  split at h
  · cases h
  · cases h
    exact le_refl _

/-- A stack that has grown is not what it was. -/
theorem not_undisturbed (hpush : s'.stack.length = s.stack.length + 1) {t : Vm F}
    (hle : s'.StackLe t) : ¬s.Undisturbed t := by
  intro h
  have hlen := congrArg List.length h.stack
  have hle' : s'.stack.length ≤ t.stack.length := hle
  omega

/-! ## Calls -/

/-- Neither the arena nor the declared shape refuses the value. -/
def HostFits (env : Env F) (shape : WireShape) (a : Arena) (v : Value F) : Prop :=
  ∃ w a', canonicalIn env a v = some (w, a') ∧ checkHostCompositeShape w shape = true

/-- There is room for the first value of a call: its first argument, when neither the arena nor its
shape refuses it, or its first local slot when it has no arguments. -/
def FirstSlotFits (env : Env F) (chunkIdx : ℕ) (chunk : Chunk) (s : Vm F) : List (Value F) → Prop
  | [] => env.operandRoom s.stack.length = true ∧ 0 < chunk.localCount
  | arg :: _ =>
    env.operandRoom s.stack.length = true ∧ HostFits env (paramShape env chunkIdx 0) s.arena arg

/-- The call comes so far that its first value is pushed. -/
def FillsSlot (env : Env F) (chunkIdx : ℕ) (args : List (Value F)) (s : Vm F) : Prop :=
  verifyNativeClassifications env = true ∧ ∃ chunk, env.chunk? chunkIdx = some chunk ∧
    args.length = chunk.paramCount ∧ argumentsAdmitted chunk.paramTypes args = true ∧
    FirstSlotFits env chunkIdx chunk s args

/-- A refused call without arguments leaves the slots it has filled. -/
theorem enterStages_refused {chunk : Chunk} {base : ℕ}
    (h : (enterStages env c chunk 0 base).run s = .error e) :
    s.Undisturbed ((enterStages env c chunk 0 base).left s) ↔
      ¬(env.operandRoom s.stack.length = true ∧ 0 < chunk.localCount) := by
  unfold enterStages at h ⊢
  rcases Stages.fails h with ⟨herr, -⟩ | ⟨_, s₁, hroom, h, hleft⟩
  · rw [if_neg (Nat.not_lt_zero _)] at herr
    cases herr
  rw [if_neg (Nat.not_lt_zero _)] at hroom
  cases hroom
  rw [hleft]
  rw [Nat.sub_zero] at h ⊢
  cases hlocals : chunk.localCount with
  | zero =>
    rw [hlocals] at h
    rcases Stages.fails h with ⟨-, hleft⟩ | ⟨_, s₂, -, h, -⟩
    · exact iff_of_true (.of_eq hleft (.refl s)) fun hfills => absurd hfills.2 (Nat.lt_irrefl 0)
    · cases h
  | succ n =>
    rw [hlocals] at h
    rcases Stages.fails h with ⟨herr, hleft⟩ | ⟨_, s₂, hpush, h, hleft⟩
    · rw [push_apply] at herr
      refine iff_of_true (.of_eq hleft (.refl s)) fun hfills => ?_
      rw [if_pos hfills.1] at herr
      cases herr
    · have hraises : s₂.StackLe ((localStages env (frameStages env ⟨c, 0, base⟩)
          (List.replicate n .unit)).left s₂) := raises_localStages (raises_frameStages _) _ s₂
      refine iff_of_false (fun hund => ?_) (not_not_intro ⟨?_, Nat.succ_pos n⟩)
      · refine not_undisturbed ?_ hraises (hleft ▸ hund)
        rw [push_ok hpush]
        simp
      · rw [push_apply] at hpush
        split at hpush
        · assumption
        · cases hpush

/-- A call that is refused for an argument leaves those before it. -/
theorem argumentStages_refused {next : Stages (Vm F) VmError} (hnext : next.Raises Vm.StackLe)
    {i : ℕ} {arg : Value F}
    (h : (argumentStages env c next i (arg :: args)).run s = .error e) :
    s.Undisturbed ((argumentStages env c next i (arg :: args)).left s) ↔
      ¬(env.operandRoom s.stack.length = true ∧
        HostFits env (paramShape env c i) s.arena arg) := by
  rw [argumentStages] at h ⊢
  rcases Stages.fails h with ⟨herr, hleft⟩ | ⟨v, s₁, hv, h, hleft⟩
  · rw [admitHostValue_apply] at herr
    refine iff_of_true (.of_eq hleft (.refl s)) ?_
    rintro ⟨-, w, a', hw, -⟩
    rw [hw] at herr
    cases herr
  rw [admitHostValue_apply] at hv
  cases hw : canonicalIn env s.arena arg with
  | none =>
    rw [hw] at hv
    cases hv
  | some r =>
    rw [hw] at hv
    cases hv
    rw [hleft]
    have hfits : HostFits env (paramShape env c i) s.arena arg ↔
        checkHostCompositeShape r.1 (paramShape env c i) = true := by
      constructor
      · rintro ⟨w, a', hw', hshape⟩
        rw [hw] at hw'
        cases hw'
        exact hshape
      · exact fun hshape => ⟨r.1, r.2, hw, hshape⟩
    rw [hfits]
    rcases Stages.fails h with ⟨herr, hleft⟩ | ⟨_, s₂, hs₂, h, hleft⟩
    · rw [requireShape_apply] at herr
      refine iff_of_true (.of_eq hleft ⟨rfl, rfl, rfl, rfl, rfl⟩) fun hboth => ?_
      rw [if_pos hboth.2] at herr
      cases herr
    rw [requireShape_apply] at hs₂
    split at hs₂
    next hshape =>
      cases hs₂
      rw [Stages.run_ok (inRegistry_apply _ _)] at h
      rw [hleft, Stages.left_ok (inRegistry_apply _ _)]
      rcases Stages.fails h with ⟨herr, hleft⟩ | ⟨_, s₃, hpush, h, hleft⟩
      · rw [push_apply] at herr
        refine iff_of_true (.of_eq hleft ⟨rfl, rfl, rfl, rfl, rfl⟩) fun hboth => ?_
        rw [if_pos hboth.1] at herr
        cases herr
      · have hraises : s₃.StackLe ((argumentStages env c next (i + 1) args).left s₃) :=
          raises_argumentStages hnext s₃
        refine iff_of_false (fun hund => ?_) (not_not_intro ⟨?_, hshape⟩)
        · refine not_undisturbed ?_ hraises (hleft ▸ hund)
          rw [push_ok hpush]
          simp
        · rw [push_apply] at hpush
          split at hpush
          · assumption
          · cases hpush
    · cases hs₂

/-- **A refused call** leaves the machine as it was exactly when it has filled no slot. -/
theorem callAfterEnter_refused (h : (callAfterEnter env c args).run s = .error e) :
    s.Undisturbed ((callAfterEnter env c args).left s) ↔ ¬FillsSlot env c args s := by
  unfold callAfterEnter at h ⊢
  rcases Stages.fails h with ⟨herr, hleft⟩ | ⟨chunk, s₁, hadmit, hrest, hleft⟩
  · refine iff_of_true (.of_eq hleft (.refl s)) ?_
    rintro ⟨hnative, chunk, hchunk, hcount, hadmitted, -⟩
    rw [admitCall_of hnative hchunk hcount hadmitted] at herr
    cases herr
  obtain ⟨rfl, hnative, hchunk, hcount, hadmitted⟩ := admitCall_ok hadmit
  have hget : (get : Exec F (Vm F)) s₁ = .ok (s₁, s₁) := rfl
  rw [Stages.run_ok hget] at hrest
  rw [hleft, Stages.left_ok hget]
  have hfills : FillsSlot env c args s₁ ↔ FirstSlotFits env c chunk s₁ args := by
    constructor
    · rintro ⟨-, chunk', hchunk', -, -, hslot⟩
      obtain rfl := Option.some.inj (hchunk.symm.trans hchunk')
      exact hslot
    · exact fun hslot => ⟨hnative, chunk, hchunk, hcount, hadmitted, hslot⟩
  rw [hfills]
  cases args with
  | nil => exact enterStages_refused hrest
  | cons arg args => exact argumentStages_refused (raises_enterStages _ _ _) hrest

/-! ## Resumes -/

/-- The resume comes so far that it writes another value into the parameter of a stream. -/
def OverwritesParameter (env : Env F) (input : Value F) (s : Vm F) : Prop :=
  s.started = true ∧ s.frames ≠ [] ∧ ∃ w a', canonicalIn env s.arena input = some (w, a') ∧
    checkHostCompositeShape w (resumeShape env s.frames) = true ∧
    ∃ f, paramFrame env s.frames = some f ∧ f.base < s.stack.length ∧
      paramAdmits env f.chunkIdx (w.internOpaqueArcs s.ephemeralOpaques).1 = true ∧
      s.stack[f.base]? ≠ some (w.internOpaqueArcs s.ephemeralOpaques).1

/-- The value of a resume is refused before it is written, or when it finds no room. -/
theorem parameter_refused {x : Value F} {atReset : Bool} {next : Unit → Stages (Vm F) VmError}
    (hnext : next = fun _ => .stage (if atReset then return else push env x) fun () => .done)
    (h : (Stages.stage (writeStreamParameter env x) next).run s = .error e) :
    s.Undisturbed ((Stages.stage (writeStreamParameter env x) next).left s) ↔
      ¬∃ f, paramFrame env s.frames = some f ∧ f.base < s.stack.length ∧
        paramAdmits env f.chunkIdx x = true ∧ s.stack[f.base]? ≠ some x := by
  subst hnext
  obtain ⟨message, happly⟩ := writeStreamParameter_apply x s
  rcases Stages.fails h with ⟨herr, hleft⟩ | ⟨_, s₁, hwrite, h, hleft⟩
  · refine iff_of_true (.of_eq hleft (.refl s)) ?_
    rintro ⟨f, hf, hlt, hadmits, -⟩
    rw [happly, hf] at herr
    dsimp only at herr
    rw [if_pos hadmits, if_pos hlt] at herr
    cases herr
  rcases Stages.fails h with ⟨-, hleft'⟩ | ⟨_, s₂, -, h, -⟩
  · rw [hleft, hleft']
    rw [happly] at hwrite
    cases hf : paramFrame env s.frames with
    | none =>
      rw [hf] at hwrite
      cases hwrite
      refine iff_of_true (.refl s) ?_
      rintro ⟨f, hf', -⟩
      cases hf'
    | some f =>
      rw [hf] at hwrite
      dsimp only at hwrite
      split at hwrite
      next hadmits =>
        split at hwrite
        next hlt =>
          cases hwrite
          constructor
          · rintro hund ⟨g, hg, -, -, hne⟩
            cases hg
            have heq : s.stack.set f.base x = s.stack := hund.stack
            exact hne (by rw [← heq, List.getElem?_set_self hlt])
          · intro hsame
            refine ⟨?_, rfl, rfl, rfl, rfl⟩
            by_contra hne
            refine hsame ⟨f, rfl, hlt, hadmits, fun hget => hne ?_⟩
            obtain ⟨_, hget⟩ := List.getElem?_eq_some_iff.mp hget
            exact hget ▸ List.set_getElem_self hlt
        · cases hwrite
      · cases hwrite
  · cases h

/-- **A refused resume** leaves the machine as it was unless it has written another parameter: what
it is then refused for is the room for its value. -/
theorem resumeAfterEnter_refused {input : Value F}
    (h : (resumeAfterEnter env input).run s = .error e) :
    s.Undisturbed ((resumeAfterEnter env input).left s) ↔ ¬OverwritesParameter env input s := by
  unfold resumeAfterEnter at h ⊢
  rcases Stages.fails h with ⟨herr, hleft⟩ | ⟨s₀, s₁, hs₁, h, hleft⟩
  · rw [requireSuspended_apply] at herr
    refine iff_of_true (.of_eq hleft (.refl s)) ?_
    rintro ⟨hstarted, hframes, -⟩
    rw [if_neg (by simp [hstarted, hframes])] at herr
    cases herr
  rw [requireSuspended_apply] at hs₁
  split at hs₁
  · cases hs₁
  next hsuspended =>
    cases hs₁
    have hstarted : s.started = true ∧ s.frames ≠ [] := by simpa using hsuspended
    rw [hleft]
    rcases Stages.fails h with ⟨herr, hleft⟩ | ⟨v, s₂, hv, h, hleft⟩
    · rw [admitHostValue_apply] at herr
      refine iff_of_true (.of_eq hleft (.refl s)) ?_
      rintro ⟨-, -, w, a', hw, -⟩
      rw [hw] at herr
      cases herr
    rw [admitHostValue_apply] at hv
    cases hw : canonicalIn env s.arena input with
    | none =>
      rw [hw] at hv
      cases hv
    | some r =>
      rw [hw] at hv
      cases hv
      rw [hleft]
      rcases Stages.fails h with ⟨herr, hleft⟩ | ⟨_, s₃, hs₃, h, hleft⟩
      · rw [requireShape_apply] at herr
        refine iff_of_true (.of_eq hleft ⟨rfl, rfl, rfl, rfl, rfl⟩) ?_
        rintro ⟨-, -, w, a', hw', hshape, -⟩
        rw [hw] at hw'
        cases hw'
        rw [if_pos hshape] at herr
        cases herr
      rw [requireShape_apply] at hs₃
      split at hs₃
      next hshape =>
        cases hs₃
        rw [Stages.run_ok (inRegistry_apply _ _)] at h
        rw [hleft, Stages.left_ok (inRegistry_apply _ _)]
        have hsame : s.Undisturbed { s with
            arena := r.2
            ephemeralOpaques := (r.1.internOpaqueArcs s.ephemeralOpaques).2 } :=
          ⟨rfl, rfl, rfl, rfl, rfl⟩
        refine hsame.congr.trans ((parameter_refused rfl h).trans (not_congr ?_))
        constructor
        · exact fun hf => ⟨hstarted.1, hstarted.2, r.1, r.2, hw, hshape, hf⟩
        · rintro ⟨-, -, w, a', hw', -, hf⟩
          rw [hw] at hw'
          cases hw'
          exact hf
      · cases hs₃

/-! ## Entries -/

/-- The entry comes so far that it changes the operand stack. -/
def HostEntry.Disturbs (env : Env F) (s : Vm F) : HostEntry F → Prop
  | .call shared args => shared.length = env.module.sharedDataBytes ∧
    ∃ entry, env.module.entryPoint = some entry ∧ FillsSlot env entry args s
  | .callFunction chunkIdx args => FillsSlot env chunkIdx args s
  | .resume shared input => shared.length = env.module.sharedDataBytes ∧
    OverwritesParameter env input s

/-- A stage that binds the shared buffer refuses what it refuses without a trace. -/
theorem bound_refused {shared : List UInt8} {next : Unit → Stages (Vm F) VmError} {P : Prop}
    (h : (Stages.stage (enterShared env shared) next).run s = .error e)
    (hnext : ∀ b, (next ()).run { s with sharedBuf := b } = .error e →
      (s.Undisturbed ((next ()).left { s with sharedBuf := b }) ↔ ¬P)) :
    s.Undisturbed ((Stages.stage (enterShared env shared) next).left s) ↔
      ¬(shared.length = env.module.sharedDataBytes ∧ P) := by
  rcases Stages.fails h with ⟨herr, hleft⟩ | ⟨_, s₁, hs₁, h, hleft⟩
  · rw [enterShared_apply] at herr
    refine iff_of_true (.of_eq hleft (.refl s)) fun hboth => ?_
    rw [if_neg (not_not_intro hboth.1)] at herr
    cases herr
  · rw [enterShared_apply] at hs₁
    split at hs₁
    · cases hs₁
    next hlen =>
      cases hs₁
      rw [hleft, hnext _ h, not_iff_not]
      exact (and_iff_right (not_not.mp hlen)).symm

/-- A function of a word and a pair of words. -/
def takesPair : Module :=
  { plainModule [⟨"main", [.getLocal 0, .return], [], [], 2, 2, .func, [.word, .composite]⟩] with
    signatures := [⟨[.scalar 3, .flat 0 16], .scalar 3, .top⟩] }

end Keleusma
