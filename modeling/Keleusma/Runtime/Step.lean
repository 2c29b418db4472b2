import Keleusma.Runtime.Handlers

/-!
# Execution

`step` executes one instruction of the innermost frame, or ends the frame when it has run off its
instructions. `callFunction` enters a chunk from the host and `resume` continues a suspended
machine. A run is a sequence of transitions between configurations: the machine executes while
its status is `running`, and the host acts when it has yielded or reset.
-/

namespace Keleusma

variable {F : Type}

/-- What an execution step reports. -/
inductive Outcome (F : Type)
  | running
  | yielded (v : Value F)
  | reset
  | finished (v : Value F)

/-- Set the instruction pointer of the innermost frame. -/
def setIp (ip : ℕ) : Exec F Unit := modify fun s =>
  match s.frames with
  | [] => s
  | f :: rest => { s with frames := { f with ip } :: rest }

/-- Drop the innermost frame. -/
def popFrame : Exec F Unit := modify fun s => { s with frames := s.frames.tail }

/-- Enter a chunk. -/
def pushFrame (env : Env F) (f : CallFrame) : Exec F Unit := do
  if env.frameRoom (← get).frames.length then modify fun s => { s with frames := f :: s.frames }
  else throw (.outOfArena "call frame")

/-- A condition operand. -/
def popBool (fault : String) : Exec F Bool := do
  match ← pop with
  | .bool b => return b
  | v => throw (.typeError (fault ++ v.typeName))

/-- The value a finished or suspended run hands to the host. -/
def handToHost (v : Value F) : Exec F (Value F) := do
  return v.materialiseOpaqueRefs (← get).ephemeralOpaques

/-- Give the result of a frame that has ended to its caller, or to the host. -/
def deliver (env : Env F) (result : Value F) : Exec F (Outcome F) := do
  if (← get).frames.isEmpty then
    modify fun s => { s with suspendedAtReset := false }
    return .finished (← handToHost result)
  else
    push env result
    return .running

/-- A frame that runs off its instructions yields the top of the stack, or `Unit`. -/
def endOfChunk (env : Env F) : Exec F (Outcome F) := do
  let result := (← get).stack.getLast?.getD .unit
  setStack (← get).stack.dropLast
  popFrame
  deliver env result

/-- `Reset`: clear the locals, drop the operands, reclaim the arena's top region, and go on
after the `Stream` instruction. Only a local slot that is not there can fail. -/
def execReset (env : Env F) (f : CallFrame) : Exec F (Outcome F) := do
  let localCount := env.chunkLocalCount f.chunkIdx
  let stack := (← get).stack
  if localCount ≠ 0 ∧ stack.length < f.base + localCount then throw (.panicked "index out of bounds")
  else
    modify fun s => { s with
      stack := stack.take f.base ++ List.replicate localCount .unit
      arena := s.arena.resetTop
      ephemeralOpaques := [] }
    match env.streamIp f.chunkIdx with
    | none => throw (.invalidBytecode "Reset without Stream in chunk")
    | some pos =>
      setIp (pos + 1)
      modify fun s => { s with suspendedAtReset := true }
      return .reset

/-- `Call`: the arguments become the first local slots of the callee, the rest start as `Unit`. -/
def execCall (env : Env F) (idx argCount : ℕ) : Exec F (Outcome F) := do
  if env.module.chunks.length ≤ idx then throw (.invalidBytecode "invalid chunk")
  else
    let newBase ← operandStart argCount
    if env.chunkLocalCount idx < argCount then
      throw (.invalidBytecode "call argument count exceeds the callee's local slot count")
    else
      pushAll env (List.replicate (env.chunkLocalCount idx - argCount) .unit)
      pushFrame env ⟨idx, 0, newBase⟩
      return .running

/-- `Return`: the frame's slots go, its result stays. -/
def execReturn (env : Env F) (f : CallFrame) : Exec F (Outcome F) := do
  let result ← pop
  popFrame
  setStack ((← get).stack.take f.base)
  deliver env result

/-- `Yield`: hand a value to the host. Text in the reclaimable region may not cross. -/
def execYield : Exec F (Outcome F) := do
  let output ← pop
  if output.hasEphemeralStr (← get).arena then
    throw (.typeError "yielded value contains a dynamic (ephemeral arena) string")
  else
    modify fun s => { s with suspendedAtReset := false }
    return .yielded (← handToHost output)

/-- Execute an instruction of frame `f`, whose instruction pointer has been advanced. -/
def execInstr (env : Env F) (f : CallFrame) : Op → Exec F (Outcome F)
  | .ifOp target => do
    if ← popBool "condition must be Bool, got " then return .running
    else
      setIp target
      return .running
  | .elseOp target | .endLoop target | .break target => do
    setIp target
    return .running
  | .breakIf target => do
    if ← popBool "BreakIf condition must be Bool, got " then
      setIp target
      return .running
    else return .running
  | .endIf | .loop _ | .stream => return .running
  | .reset => execReset env f
  | .call idx argCount => execCall env idx argCount
  | .return => execReturn env f
  | .yield => execYield
  | op => do
    execOp env f.chunkIdx f.base op
    return .running

/-- One step of the machine. -/
def step (env : Env F) : Exec F (Outcome F) := do
  match (← get).frames with
  | [] => throw (.invalidBytecode "empty call stack")
  | f :: _ =>
    match (env.ops f.chunkIdx)[f.ip]? with
    | none => endOfChunk env
    | some op =>
      setIp (f.ip + 1)
      execInstr env f op

/-! ## Entry from the host -/

/-- A native call site agrees with the way its native is registered. -/
def nativeSiteOk (env : Env F) : Op → Bool
  | .callVerifiedNative idx _ =>
    ((env.module.nativeNames[idx]?).bind env.natives).any fun n => !n.external
  | .callExternalNative idx _ =>
    ((env.module.nativeNames[idx]?).bind env.natives).any fun n => n.external
  | _ => true

/-- Every native the module calls is registered, with the classification the bytecode declares. -/
def verifyNativeClassifications (env : Env F) : Bool :=
  env.module.chunks.all fun c => c.ops.all (nativeSiteOk env)

/-- A host composite must have the flat body the signature declares. -/
def checkHostCompositeShape (v : Value F) : WireShape → Bool
  | .flat kind size =>
    match CompositeKind.fromTag kind with
    | none | some .enum => true
    | some declared =>
      match v with
      | .flat got body => got == declared && body.len == size
      | _ => false
  | _ => true

/-- Prepare one argument of a host call and push it as a local slot. -/
def pushArgument (env : Env F) (chunkIdx i : ℕ) (arg : Value F) : Exec F Unit := do
  let v ← admitHostValue env "composite argument" arg
  let shape := ((env.module.signatures[chunkIdx]?).bind fun s => s.params[i]?).getD .top
  if checkHostCompositeShape v shape then push env (← inRegistry v.internOpaqueArcs)
  else throw (.typeError "a host composite must have the script's field order and field types")

/-- Push the arguments, the first one lowest. -/
def pushArguments (env : Env F) (chunkIdx : ℕ) : ℕ → List (Value F) → Exec F Unit
  | _, [] => return
  | i, v :: vs => do
    pushArgument env chunkIdx i v
    pushArguments env chunkIdx (i + 1) vs

/-- Whether the arguments have the declared primitive types. A parameter without a tag, and all
after it, are not checked. -/
def argumentsAdmitted : List TypeTag → List (Value F) → Bool
  | tag :: tags, v :: vs => tag.admits v && argumentsAdmitted tags vs
  | _, _ => true

/-- What is said of the first argument, from parameter `i` on, that has another type. -/
def argumentRefusal (name : String) (i : ℕ) : List TypeTag → List (Value F) → String
  | tag :: tags, v :: vs =>
    if tag.admits v then argumentRefusal name (i + 1) tags vs
    else s!"function `{name}` parameter {i} expected {tag.name}, got {v.typeName}"
  | _, _ => ""

/-- What is said of a wrong number of arguments. -/
def countRefusal (name : String) (expected got : ℕ) : String :=
  let plural := if expected = 1 then "" else "s"
  s!"function `{name}` expected {expected} argument{plural}, got {got}"

/-- What is said of a resume value of another type. -/
def resumeRefusal (name : String) (tag : Option TypeTag) (v : Value F) : String :=
  let expected := tag.elim "" TypeTag.name
  s!"loop `{name}` resume expected {expected}, got {v.typeName}"

/-- Bind the shared buffer of a host entry; its length must be the declared one. -/
def enterShared (env : Env F) (shared : List UInt8) : Exec F Unit := do
  if shared.length ≠ env.module.sharedDataBytes then
    throw (.nativeError "shared data buffer has not the declared length")
  else
    modify fun s => { s with sharedBuf := if shared.isEmpty then none else some shared }

/-- Enter a chunk from the host. -/
def callFunction (env : Env F) (chunkIdx : ℕ) (shared : List UInt8) (args : List (Value F)) :
    Exec F Unit := do
  enterShared env shared
  if !verifyNativeClassifications env then
    throw (.invalidBytecode "native classification mismatch")
  else
    match env.chunk? chunkIdx with
    | none => throw (.invalidBytecode s!"invalid chunk index: {chunkIdx}")
    | some chunk =>
      if args.length ≠ chunk.paramCount then
        throw (.typeError (countRefusal chunk.name chunk.paramCount args.length))
      else if !argumentsAdmitted chunk.paramTypes args then
        throw (.typeError (argumentRefusal chunk.name 0 chunk.paramTypes args))
      else
        let base := (← get).stack.length
        pushArguments env chunkIdx 0 args
        if chunk.localCount < args.length then
          throw (.panicked "attempt to subtract with overflow")
        else
          pushAll env (List.replicate (chunk.localCount - args.length) .unit)
          pushFrame env ⟨chunkIdx, 0, base⟩
          modify fun s => { s with started := true }

/-- The frame whose parameter a resume writes: the innermost stream frame, or else the outermost
frame. -/
def resumeFrame (env : Env F) (frames : List CallFrame) : Option CallFrame :=
  match frames.find? fun f => (env.chunk? f.chunkIdx).any (·.blockType == .stream) with
  | some f => some f
  | none => frames.getLast?

/-- Store a resume value in the parameter slot of the stream chunk it resumes. -/
def writeStreamParameter (env : Env F) (input : Value F) : Exec F Unit := do
  match resumeFrame env (← get).frames with
  | none => return
  | some f =>
    match env.chunk? f.chunkIdx with
    | none => return
    | some c =>
      if c.blockType == .stream && 0 < c.paramCount then
        if (c.paramTypes[0]?).all (·.admits input) then writeLocal f.base input
        else throw (.typeError (resumeRefusal c.name c.paramTypes[0]? input))
      else return

/-- Continue a suspended machine with a value from the host. After a yield the value becomes the
result of the yield expression. -/
def resume (env : Env F) (shared : List UInt8) (input : Value F) : Exec F Unit := do
  enterShared env shared
  let s ← get
  if !s.started || s.frames.isEmpty then throw .notSuspended
  else
    let v ← admitHostValue env "composite resume value" input
    let shape := (s.frames.getLast?.bind fun f => env.module.signatures[f.chunkIdx]?).elim
      WireShape.top (·.resume)
    if !checkHostCompositeShape v shape then
      throw (.typeError "a host composite must have the script's field order and field types")
    else
      let v ← inRegistry v.internOpaqueArcs
      writeStreamParameter env v
      if s.suspendedAtReset then return else push env v

/-! ## Runs -/

/-- Whether the machine executes, or waits for the host. -/
inductive Status
  | running | yielded | reset | finished
  deriving DecidableEq, Repr

/-- The status after a step. -/
def Outcome.status : Outcome F → Status
  | .running => .running
  | .yielded _ => .yielded
  | .reset => .reset
  | .finished _ => .finished

/-- The machine and its status. -/
structure Config (F : Type) where
  vm : Vm F
  status : Status

/-- A transition of a run: the machine executes a step, or the host resumes it. -/
inductive Transition (env : Env F) : Config F → Config F → Prop
  | exec {vm vm' : Vm F} {o : Outcome F} (h : (step env).run vm = .ok (o, vm')) :
      Transition env ⟨vm, .running⟩ ⟨vm', o.status⟩
  | resume {vm vm' : Vm F} {st : Status} (shared : List UInt8) (input : Value F)
      (hst : st = .yielded ∨ st = .reset) (h : (resume env shared input).run vm = .ok ((), vm')) :
      Transition env ⟨vm, st⟩ ⟨vm', .running⟩

/-- A machine that holds no execution: no operands and no frames. -/
def Vm.Idle (vm : Vm F) : Prop := vm.stack = [] ∧ vm.frames = []

/-- The configurations a host call of a chunk starts from. -/
def Entered (env : Env F) (chunkIdx : ℕ) (c : Config F) : Prop :=
  ∃ vm shared args, vm.Idle ∧ (callFunction env chunkIdx shared args).run vm = .ok ((), c.vm) ∧
    c.status = .running

/-- The configurations of the runs that a call of the chunk starts. -/
inductive Reaches (env : Env F) (chunkIdx : ℕ) : Config F → Prop
  | start {c : Config F} (h : Entered env chunkIdx c) : Reaches env chunkIdx c
  | next {c c' : Config F} (h : Reaches env chunkIdx c) (ht : Transition env c c') :
      Reaches env chunkIdx c'

end Keleusma
