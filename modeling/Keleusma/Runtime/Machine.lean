import Keleusma.Bytecode.Effect
import Keleusma.Runtime.Codec

/-!
# The state of the virtual machine

The machine holds an operand stack shared by all frames, the call frames, the arena, the data
segment and the registry of host objects. A frame's local slots lie on the operand stack at its
base; its operands lie above them. The stack is a list with its bottom at index zero, the frames
a list with the innermost frame first.

What is fixed for a run is collected in `Env`: the module, the float type, the widths of the
runtime, the registered natives, the addresses of the constants, and how far the arena lets the
stacks grow. A native is host code: it sees the arena, the registry and its arguments, may use
the arena, and answers differently from call to call.

`Exec` is the monad of the instruction handlers, state over errors.
-/

namespace Keleusma

/-- A registered native function. Its first argument counts the native calls made so far. -/
structure Native (F : Type) where
  external : Bool
  func : ℕ → Arena → List ℕ → List (Value F) → Except HostError (Value F) × Arena

/-- What is fixed for a run. -/
structure Env (F : Type) where
  module : Module
  fo : FloatOps F
  runtimeBitsLog2 : ℕ
  pointerBytes : ℕ
  valueSlotBytes : ℕ
  natives : String → Option (Native F)
  /-- Whether the arena grants one more operand slot at the given height of the stack. -/
  operandRoom : ℕ → Bool
  /-- Whether the arena grants one more call frame at the given depth. -/
  frameRoom : ℕ → Bool
  /-- The address of a string constant in the bytecode image. -/
  rodataAddr : ℕ → ℕ → ℕ
  /-- The address of a pooled composite constant. -/
  poolAddr : ℕ → ℕ → ℕ

/-- A frame: its chunk, its next instruction, and where its local slots start. -/
structure CallFrame where
  chunkIdx : ℕ
  ip : ℕ
  base : ℕ
  deriving DecidableEq, Repr

/-- The state of the machine. -/
structure Vm (F : Type) where
  stack : List (Value F)
  frames : List CallFrame
  arena : Arena
  /-- The private data slots. -/
  privateData : List (Value F)
  /-- The shared buffer the host has lent. -/
  sharedBuf : Option (List UInt8)
  ephemeralOpaques : List ℕ
  reifiedHostError : Option HostError
  nativeCalls : ℕ
  started : Bool
  suspendedAtReset : Bool

namespace Env

variable {F : Type} (env : Env F)

def widths : Widths where
  wordBytes := env.module.wordBytes
  floatBytes := env.module.floatBytes
  addrBytes := env.module.addrBytes
  pointerBytes := env.pointerBytes
  runtimeBitsLog2 := env.runtimeBitsLog2

/-- The chunk of an index. -/
def chunk? (idx : ℕ) : Option Chunk := env.module.chunks[idx]?

/-- The instructions of a chunk; none for an index out of range. -/
def ops (idx : ℕ) : List Op := (env.chunk? idx).elim [] (·.ops)

/-- The number of local slots of a chunk. -/
def chunkLocalCount (idx : ℕ) : ℕ := (env.chunk? idx).elim 0 (·.localCount)

def chunkConstValue (chunkIdx idx : ℕ) : Option ConstValue := do
  (← env.chunk? chunkIdx).constants[idx]?

/-- A string constant. -/
def chunkConstStr (chunkIdx idx : ℕ) : Option String :=
  match env.chunkConstValue chunkIdx idx with
  | some (.staticStr s) => some s
  | _ => none

/-- The value a constant loads as: text as a handle into the bytecode image, a composite with a
flat form as a handle into the constant pool, anything else as it is. -/
def chunkConst (chunkIdx idx : ℕ) : Value F :=
  match env.chunkConstValue chunkIdx idx with
  | none => .unit
  | some (.staticStr s) =>
    if s.isEmpty then .staticStr ""
    else .kstr ⟨env.rodataAddr chunkIdx idx, s.utf8ByteSize, 0⟩
  | some c =>
    match c.compositeKind?, constFlatBytes env.fo env.module.wordBytes env.module.floatBytes c with
    | some kind, some bytes =>
      if bytes.isEmpty then Value.fromConst env.fo env.runtimeBitsLog2 c
      else .flat kind ⟨env.poolAddr chunkIdx idx, bytes.length, 0⟩
    | _, _ => Value.fromConst env.fo env.runtimeBitsLog2 c

/-- The names a boxed composite is built with. -/
def structTemplate (chunkIdx idx : ℕ) : StructTemplate :=
  ((env.chunk? chunkIdx).bind fun c => c.structTemplates[idx]?).getD ⟨"", []⟩

def sharedSlotCount : ℕ :=
  env.module.dataLayout.elim 0 fun l =>
    (l.slots.filter (·.visibility == .sharedSlot)).length

def privateSlotCount : ℕ :=
  env.module.dataLayout.elim 0 fun l =>
    (l.slots.filter (·.visibility == .privateSlot)).length

/-- The number of data slots, shared ones first. -/
def dataLen : ℕ := env.sharedSlotCount + env.privateSlotCount

/-- The offset of a private composite slot in the persistent pool. -/
def privateCompositePoolOffset (slot : ℕ) : Option ℕ := do
  let l ← env.module.dataLayout
  let e ← l.privateCompositeLayout.find? (·.slot == slot)
  return e.offset

/-- The bytes of the private slots themselves, in front of the composite pool. -/
def privateStorage : ℕ := env.privateSlotCount * env.valueSlotBytes

/-- Where the pool region that begins at an offset ends: at the next slot's offset, or at the
end of the pool. -/
def privateCompositeSlotEnd (relOffset persistentCapacity : ℕ) : ℕ :=
  let pool := persistentCapacity - env.privateStorage
  match env.module.dataLayout with
  | none => pool
  | some l =>
    (((l.privateCompositeLayout.map (·.offset)).filter (relOffset < ·)).min?).getD pool

/-- The position `Reset` returns to lies after this instruction. -/
def streamIp (chunkIdx : ℕ) : Option ℕ := (env.ops chunkIdx).findIdx? (· == .stream)

end Env

/-! ## Primitive operations -/

/-- Instruction handlers: state over errors. -/
abbrev Exec (F : Type) := StateT (Vm F) (Except VmError)

variable {F : Type}

/-- Replace the operand stack. -/
def setStack (stack : List (Value F)) : Exec F Unit := modify fun s => { s with stack }

/-- Pop a value. -/
def pop : Exec F (Value F) := do
  match (← get).stack.getLast? with
  | none => throw .stackUnderflow
  | some v =>
    setStack (← get).stack.dropLast
    return v

/-- Look at the top of the stack. -/
def peekOperand : Exec F (Value F) := do
  match (← get).stack.getLast? with
  | none => throw .stackUnderflow
  | some v => return v

/-- Push a value, when the arena grants the slot. -/
def push (env : Env F) (v : Value F) : Exec F Unit := do
  if env.operandRoom (← get).stack.length then setStack ((← get).stack ++ [v])
  else throw (.outOfArena "operand stack")

/-- Push values in order. -/
def pushAll (env : Env F) : List (Value F) → Exec F Unit
  | [] => return
  | v :: vs => do
    push env v
    pushAll env vs

/-- The height of the stack below the top `count` operands. -/
def operandStart (count : ℕ) : Exec F ℕ := do
  if count ≤ (← get).stack.length then return (← get).stack.length - count
  else throw .stackUnderflow

/-- Take the top `count` operands off the stack. -/
def drain (count : ℕ) : Exec F (List (Value F)) := do
  let start ← operandStart count
  let values := (← get).stack.drop start
  setStack ((← get).stack.take start)
  return values

/-- Allocate in the arena, or fail with the region that was refused. -/
def inArena {α : Type} (region : String) (m : ArenaM α) : Exec F α := do
  match m (← get).arena with
  | none => throw (.outOfArena region)
  | some (x, arena) =>
    modify fun s => { s with arena }
    return x

/-- A computation that reads or extends the registry of host objects. -/
def inRegistry {α : Type} (m : StateM (List ℕ) α) : Exec F α := do
  let (x, ephemeralOpaques) := m (← get).ephemeralOpaques
  modify fun s => { s with ephemeralOpaques }
  return x

/-- A stale body is read. -/
def staleArenaBody : VmError :=
  .invalidBytecode "flat composite body read after arena reset (stale)"

/-- The bytes of a body. -/
def resolveBody (body : Handle) : Exec F (List UInt8) := do
  match (← get).arena.resolve body with
  | none => throw staleArenaBody
  | some bytes => return bytes

/-- A zero-copy view of a nested composite. -/
def nestedField (body : Handle) (offset size : ℕ) (variant : CompositeKind) :
    Exec F (Value F) := do
  match flatNestedField (← get).arena body offset size variant with
  | none => throw staleArenaBody
  | some v => return v

/-- A result of the scalar codec. -/
def ofScalar {α : Type} (r : Except ScalarError α) : Exec F α :=
  match r with
  | .ok x => return x
  | .error e => throw e.toVmError

/-- A result that changes no state. -/
def ofResult {α : Type} (r : Except VmError α) : Exec F α :=
  match r with
  | .ok x => return x
  | .error e => throw e

/-- The value in a local slot. -/
def readLocal (idx : ℕ) : Exec F (Value F) := do
  match (← get).stack[idx]? with
  | some v => return v
  | none => throw (.panicked "index out of bounds")

/-- Overwrite a local slot. -/
def writeLocal (idx : ℕ) (v : Value F) : Exec F Unit := do
  if idx < (← get).stack.length then setStack ((← get).stack.set idx v)
  else throw (.panicked "index out of bounds")

/-! ## Data slots -/

/-- Read a shared slot from the host's buffer: a scalar is decoded in place, a composite is
copied into the arena. -/
def readSharedFromBuffer (env : Env F) (slot : ℕ) : Exec F (Value F) := do
  match env.module.dataLayout.bind (·.sharedLayout[slot]?) with
  | none => throw (.panicked "shared slot index within the declared layout")
  | some e =>
    match (← get).sharedBuf with
    | none => throw (.nativeError "read_shared_from_buffer ran with no shared-data buffer bound")
    | some buf =>
      if e.kind &&& sharedSlotCompositeFlag = 0 then
        match ScalarKind.fromTag e.kind with
        | none => throw (.invalidBytecode "bad shared scalar kind")
        | some kind => ofScalar (readScalarLe env.fo env.widths buf e.offset kind)
      else
        match CompositeKind.fromTag (e.kind &&& 0x7F) with
        | none => throw (.invalidBytecode "bad shared composite kind")
        | some kind =>
          match slice buf e.offset e.len with
          | none => throw (.panicked "range end index out of range for slice")
          | some bytes =>
            return .flat kind (← inArena "shared composite read" fun a => a.build bytes)

/-- Read a data slot. -/
def readDataSlot (env : Env F) (slot : ℕ) : Exec F (Value F) := do
  if slot < env.sharedSlotCount then readSharedFromBuffer env slot
  else return (← get).privateData.getD (slot - env.sharedSlotCount) .unit

/-- Write a shared slot to the host's buffer. -/
def writeSharedToBuffer (env : Env F) (slot : ℕ) (value : Value F) : Exec F Unit := do
  match env.module.dataLayout.bind (·.sharedLayout[slot]?) with
  | none => throw (.panicked "shared slot index within the declared layout")
  | some e =>
    let unbound : VmError :=
      .nativeError "write_shared_to_buffer ran with no shared-data buffer bound"
    if e.kind &&& sharedSlotCompositeFlag = 0 then
      match (← get).sharedBuf with
      | none => throw unbound
      | some buf =>
        match scalarBytes env.fo env.widths value with
        | some bytes =>
          if e.offset + bytes.length ≤ buf.length then
            modify fun s => { s with
              sharedBuf := some (buf.take e.offset ++ bytes ++ buf.drop (e.offset + bytes.length)) }
          else throw ScalarError.outOfBounds.toVmError
        | none => throw ScalarError.unsupportedWidth.toVmError
    else
      match value.flatCompositeRef with
      | none => throw (.typeError "expected a flat composite for a shared composite slot")
      | some body =>
        let bytes ← resolveBody body
        if bytes.length ≠ e.len then
          throw (.invalidBytecode "shared composite slot resolves to a body of another length")
        else
          match (← get).sharedBuf with
          | none => throw unbound
          | some buf =>
            modify fun s => { s with
              sharedBuf := some (buf.take e.offset ++ bytes ++ buf.drop (e.offset + bytes.length)) }

/-- Copy a flat body into its slot of the persistent pool. -/
def persistCompositeBody (env : Env F) (kind : CompositeKind) (body : Handle) (relOffset : ℕ) :
    Exec F (Value F) := do
  let bytes ← resolveBody body
  let a := (← get).arena
  if env.privateCompositeSlotEnd relOffset a.persistentCapacity < relOffset + bytes.length then
    throw (.invalidBytecode "private composite body overruns its pool slot region")
  else
    let dstOff := env.privateStorage + relOffset
    if a.persistentCapacity < dstOff + bytes.length then
      throw (.outOfArena "persistent composite data slot")
    else
      modify fun s => { s with arena := a.write (a.base + dstOff) bytes }
      return .flat kind ⟨a.base + dstOff, bytes.length, a.epoch⟩

/-- Overwrite a data slot. -/
def writeDataSlot (env : Env F) (slot : ℕ) (value : Value F) : Exec F Unit := do
  if slot < env.sharedSlotCount then writeSharedToBuffer env slot value
  else
    let toStore ← match value, env.privateCompositePoolOffset slot with
      | .flat kind body, some off => persistCompositeBody env kind body off
      | v, _ => pure v
    modify fun s => { s with
      privateData := s.privateData.set (slot - env.sharedSlotCount) toStore }

end Keleusma
