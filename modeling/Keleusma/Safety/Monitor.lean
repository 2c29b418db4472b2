import Keleusma.Runtime.Hosting
import Keleusma.Verify.Accepted

/-!
# Monitored runs

A property of a run often speaks of what has happened so far: which slots a frame has written,
how many instructions it has executed. A monitor keeps such a record beside the machine, one
entry for each frame with the innermost first, and never influences it. Runs are restricted to
steps that meet a condition on the state before the step.
-/

namespace Keleusma

variable {F γ : Type}

/-! ## The chunks of the machine -/

/-- The instruction a frame executes next. -/
def nextOp (env : Env F) (f : CallFrame) : Option Op := (env.ops f.chunkIdx)[f.ip]?

theorem ops_of_chunk? {env : Env F} {idx : ℕ} {chunk : Chunk} (h : env.chunk? idx = some chunk) :
    env.ops idx = chunk.ops := by
  simp only [Env.ops, h, Option.elim]

theorem accepted_of_chunk? {env : Env F} (hv : verify env.module = .ok ()) {idx : ℕ}
    {chunk : Chunk} (h : env.chunk? idx = some chunk) : ChunkAccepted env.module chunk :=
  verify_chunkAccepted hv (List.mem_of_getElem? h)

/-- `Reset` returns to a `Stream`. -/
theorem streamIp_getElem? {env : Env F} {idx pos : ℕ} (h : env.streamIp idx = some pos) :
    (env.ops idx)[pos]? = some .stream := by
  rw [Env.streamIp, List.findIdx?_eq_some_iff_getElem] at h
  obtain ⟨hlt, hp, -⟩ := h
  rw [List.getElem?_eq_getElem hlt, eq_of_beq hp]

/-! ## Monitors -/

/-- A record kept along a run. -/
structure Monitor (F γ : Type) where
  /-- The entry of the frame that a host call enters. -/
  enter : ℕ → γ
  /-- The entries after a step from a state. -/
  exec : Vm F → List γ → List γ
  /-- The entries after a resume of a state. -/
  resume : Vm F → List γ → List γ

/-- The configurations, with their records, of the runs that a call of a chunk starts and whose
steps all meet the condition `ok`. -/
inductive Monitor.Reaches (env : Env F) (M : Monitor F γ) (ok : Vm F → Prop) (chunkIdx : ℕ) :
    Config F → List γ → Prop
  | start {c : Config F} (h : Entered env chunkIdx c) : Reaches env M ok chunkIdx c [M.enter chunkIdx]
  | exec {vm vm' : Vm F} {o : Outcome F} {gs : List γ}
      (h : Reaches env M ok chunkIdx ⟨vm, .running⟩ gs) (hok : ok vm)
      (hs : (step env).run vm = .ok (o, vm')) :
      Reaches env M ok chunkIdx ⟨vm', o.status⟩ (M.exec vm gs)
  | resume {vm vm' : Vm F} {st : Status} {gs : List γ} (h : Reaches env M ok chunkIdx ⟨vm, st⟩ gs)
      (shared : List UInt8) (input : Value F) (hst : st = .yielded ∨ st = .reset)
      (hs : (Keleusma.resume env shared input).run vm = .ok ((), vm')) :
      Reaches env M ok chunkIdx ⟨vm', .running⟩ (M.resume vm gs)

/-- **A monitor does not change the runs.** -/
theorem Monitor.Reaches.reaches {env : Env F} {M : Monitor F γ} {ok : Vm F → Prop} {c : ℕ}
    {cfg : Config F} {gs : List γ} (h : M.Reaches env ok c cfg gs) : Keleusma.Reaches env c cfg := by
  induction h with
  | start h => exact .start h
  | exec _ _ hs ih => exact .next ih (.exec hs)
  | resume _ shared input hst hs ih => exact .next ih (.resume shared input hst hs)

/-- A run meets every condition that follows from the one that it meets where it has come to. -/
theorem Monitor.Reaches.strengthen {env : Env F} {M : Monitor F γ} {ok ok' : Vm F → Prop} {c : ℕ}
    {cfg : Config F} {gs : List γ} (h : M.Reaches env ok c cfg gs)
    (hok : ∀ vm gs, M.Reaches env ok c ⟨vm, .running⟩ gs → ok vm → ok' vm) :
    M.Reaches env ok' c cfg gs := by
  induction h with
  | start h => exact .start h
  | exec hreach hvm hs ih => exact .exec ih (hok _ _ hreach hvm) hs
  | resume _ shared input hst hs ih => exact .resume ih shared input hst hs

theorem Monitor.Reaches.mono {env : Env F} {M : Monitor F γ} {ok ok' : Vm F → Prop} {c : ℕ}
    {cfg : Config F} {gs : List γ} (h : M.Reaches env ok c cfg gs)
    (hok : ∀ vm, ok vm → ok' vm) : M.Reaches env ok' c cfg gs :=
  h.strengthen fun vm _ _ => hok vm

/-- The status of a monitored run says how the machine was suspended. -/
theorem Monitor.Reaches.suspension {env : Env F} {M : Monitor F γ} {ok : Vm F → Prop} {c : ℕ}
    {cfg : Config F} {gs : List γ} (h : M.Reaches env ok c cfg gs) :
    (cfg.status = .yielded → cfg.vm.suspendedAtReset = false) ∧
      (cfg.status = .reset → cfg.vm.suspendedAtReset = true) :=
  Keleusma.Reaches.suspension h.reaches

/-! ## Scripted runs

A script says what happens in a run: the machine executes a step, or the host resumes it with a
value. Playing a script computes the run. -/

/-- Play a script from a configuration: `none` is a step, `some v` a resume with `v`. -/
def Monitor.play (env : Env F) (M : Monitor F γ) :
    List (Option (Value F)) → Config F × List γ → Option (Config F × List γ)
  | [], c => some c
  | none :: script, (⟨vm, .running⟩, gs) =>
    match (step env).run vm with
    | .ok (o, vm') => M.play env script (⟨vm', o.status⟩, M.exec vm gs)
    | .error _ => none
  | some v :: script, (⟨vm, .yielded⟩, gs) | some v :: script, (⟨vm, .reset⟩, gs) =>
    match (Keleusma.resume env [] v).run vm with
    | .ok ((), vm') => M.play env script (⟨vm', .running⟩, M.resume vm gs)
    | .error _ => none
  | _, _ => none

/-- Call a chunk of an idle machine and play a script. -/
def Monitor.playCall (env : Env F) (M : Monitor F γ) (vm : Vm F) (chunkIdx : ℕ)
    (args : List (Value F)) (script : List (Option (Value F))) : Option (Config F × List γ) :=
  match (callFunction env chunkIdx [] args).run vm with
  | .ok ((), vm') => M.play env script (⟨vm', .running⟩, [M.enter chunkIdx])
  | .error _ => none

theorem Monitor.play_reaches {env : Env F} {M : Monitor F γ} {c : ℕ}
    {script : List (Option (Value F))} {cfg cfg' : Config F} {gs gs' : List γ}
    (h : M.Reaches env (fun _ => True) c cfg gs)
    (hp : M.play env script (cfg, gs) = some (cfg', gs')) :
    M.Reaches env (fun _ => True) c cfg' gs' := by
  induction script generalizing cfg gs with
  | nil =>
    cases hp
    exact h
  | cons e script ih =>
    obtain ⟨vm, st⟩ := cfg
    cases e with
    | none =>
      cases st with
      | running =>
        simp only [Monitor.play] at hp
        split at hp
        next o vm' hs => exact ih (.exec h trivial hs) hp
        · cases hp
      | _ => cases hp
    | some v =>
      cases st with
      | yielded =>
        simp only [Monitor.play] at hp
        split at hp
        next vm' hs => exact ih (.resume h [] v (.inl rfl) hs) hp
        · cases hp
      | reset =>
        simp only [Monitor.play] at hp
        split at hp
        next vm' hs => exact ih (.resume h [] v (.inr rfl) hs) hp
        · cases hp
      | _ => cases hp

/-- **A script that can be played is a run.** -/
theorem Monitor.playCall_reaches {env : Env F} {M : Monitor F γ} {vm : Vm F} {c : ℕ}
    {args : List (Value F)} {script : List (Option (Value F))} {cfg : Config F} {gs : List γ}
    (hidle : vm.Idle) (hp : M.playCall env vm c args script = some (cfg, gs)) :
    M.Reaches env (fun _ => True) c cfg gs := by
  unfold Monitor.playCall at hp
  split at hp
  next vm' hs => exact M.play_reaches (.start ⟨vm, [], args, hidle, hs, rfl⟩) hp
  · cases hp

/-- Nothing is recorded. -/
def noRecord : Monitor F Unit := ⟨fun _ => (), fun _ gs => gs, fun _ gs => gs⟩

/-! ## A plain machine

The hosts of the examples below register no natives, lend no shared buffer and grant the stacks
all they ask for. -/

/-- A float type with one value. -/
def unitFloats : FloatOps Unit where
  add _ _ := ()
  sub _ _ := ()
  mul _ _ := ()
  div _ _ := ()
  rem _ _ := ()
  neg _ := ()
  zero := ()
  beq _ _ := true
  compare _ _ := .eq
  narrow _ x := x
  ofInt _ := ()
  toInt _ := 0
  checkedFlag _ := 0
  ofBits _ := ()
  toLeBytes n _ := List.replicate n 0
  ofLeBytes _ := ()
  length_toLeBytes _ _ := List.length_replicate

/-- A 64-bit machine that runs a module. -/
def plainEnv (m : Module) : Env Unit where
  module := m
  fo := unitFloats
  runtimeBitsLog2 := 6
  pointerBytes := 8
  valueSlotBytes := 32
  natives _ := none
  operandRoom _ := true
  frameRoom _ := true
  rodataAddr _ _ := 0
  poolAddr _ _ := 0

/-- The machine before its first call. -/
def freshVm : Vm Unit where
  stack := []
  frames := []
  arena := ⟨0, 4096, 0, 0, 4096, 1, fun _ => 0⟩
  privateData := []
  sharedBuf := none
  ephemeralOpaques := []
  reifiedHostError := none
  nativeCalls := 0
  started := false
  suspendedAtReset := false

theorem freshVm_idle : freshVm.Idle := ⟨rfl, rfl⟩

/-- A module of 64-bit words that consists of chunks only. -/
def plainModule (chunks : List Chunk) : Module where
  chunks := chunks
  nativeNames := []
  entryPoint := some 0
  dataLayout := none
  wordBitsLog2 := 6
  addrBitsLog2 := 6
  floatBitsLog2 := 6
  persistentCompositeBytes := 0
  sharedDataBytes := 0
  enumLayouts := []
  signatures := []
  nativeReturnShapes := []

/-- A chunk without constants. -/
def plainChunk (ops : List Op) (blockType : BlockType) (localCount paramCount : ℕ) : Chunk where
  name := "f"
  ops := ops
  constants := []
  structTemplates := []
  localCount := localCount
  paramCount := paramCount
  blockType := blockType
  paramTypes := []

/-- A stream that yields in every iteration what a function returns. -/
def callsEachTick : Module := plainModule [
  plainChunk [.stream, .call 1 0, .yield, .popN 1, .reset] .stream 0 0,
  plainChunk [.pushImmediate 1, .return] .func 0 0]

end Keleusma
