import Keleusma.Bytecode.Effect

/-!
# Structural verification

The verifier refuses a module with a `VerifyError` that names the chunk and the fault. Its first
pass over a chunk keeps a stack of the blocks that are open and checks every delimiter against
it; every other instruction has its operands checked against the tables of the module. Its
second pass counts the instructions that a category of chunk must or must not contain.
-/

namespace Keleusma

/-- The kinds of blocks. -/
inductive BlockKind
  | ifBlock | loopBlock
  deriving DecidableEq, Repr

/-- The reasons of the typed operand-stack pass. -/
inductive TypedError
  | stackUnderflow (ip : ℕ)
  | offsetOutOfBounds (ip offset need size : ℕ)
  | expectedComposite (ip : ℕ)
  | newCompositeSizeMismatch (ip baked computed : ℕ)
  | textFieldMismatch (ip offset : ℕ)
  | branchHeightMismatch (ip thenHeight elseHeight : ℕ)
  | loopNotNeutral (ip entryHeight exitHeight : ℕ)
  | loopFloorBreach (ip floor available required : ℕ)
  | localTypeMismatch (ip slot : ℕ)
  | callArgMismatch (ip callee arg : ℕ)
  | arrayStrideMismatch (ip elementSize arraySize : ℕ)
  | sharedSlotOutOfBounds (slot offset size buffer : ℕ)
  | enumBodySizeMismatch (ip baked : ℕ)
  | privateCompositeLayoutInvalid (index slot : ℕ) (reason : String)
  | sharedLayoutCountMismatch (sharedSlots layoutLen : ℕ) (reason : String)
  | panicked

/-- The reasons for which a chunk is refused. -/
inductive Fault
  | nonForwardTarget (op : Op) (ip target len : ℕ)
  | targetOutOfBounds (op : Op) (ip len : ℕ)
  | elseWithoutIf (ip : ℕ)
  | ifTargetNotElseBody (ifIp ifTarget ip : ℕ)
  | elseTargetNotEndIf (ip target : ℕ) (found : Op)
  | ifTargetNotEndIf (ifIp ip ifTarget : ℕ)
  | endIfWithoutIf (ip : ℕ)
  | endIfInsideLoop (ip : ℕ)
  | endLoopBackEdge (ip target loopIp : ℕ)
  | loopExit (loopIp exit ip : ℕ)
  | endLoopInsideIf (ip : ℕ)
  | endLoopWithoutLoop (ip : ℕ)
  | breakOutsideLoop (op : Op) (ip : ℕ)
  | breakTarget (op : Op) (ip exit : ℕ)
  | noDataLayout (op : Op) (ip : ℕ)
  | dataSlotOutOfRange (op : Op) (ip stop dataLen : ℕ)
  | constantOutOfRange (op : Op) (ip poolLen : ℕ)
  | callTargetOutOfRange (ip callee chunkCount : ℕ)
  | callArity (ip argCount callee calleeLocals : ℕ)
  | nativeOutOfRange (op : Op) (ip nativeCount : ℕ)
  | fracBitsOutOfRange (op : Op) (ip wordBits : ℕ)
  | localOutOfRange (op : Op) (ip localCount : ℕ)
  | templateOutOfRange (ip metaIdx templateCount : ℕ)
  | unclosedBlock (kind : BlockKind) (ip : ℕ)
  | forbiddenInstruction (blockType : BlockType) (op : Op) (count : ℕ)
  | markerCount (op : Op) (count : ℕ)
  | noYield (blockType : BlockType)
  | notProductive
  | nestedTooDeep
  | operandUnderflow (op : Op) (ip need have_ : ℕ)
  | runsOffEnd (depth : ℕ)
  | uninitialisedLocal (ip slot : ℕ)
  | uninitialisedData (ip slot : ℕ)
  | typed (e : TypedError)
  | noStream | noReset
  | unboundedLoop (ip : ℕ)
  | recursiveCall
  | panicked

/-- A refusal. -/
structure VerifyError where
  chunkName : String
  fault : Fault

/-- Turn a fault of a chunk into a refusal. -/
def inChunk {α : Type} (chunk : Chunk) (r : Except Fault α) : Except VerifyError α :=
  r.mapError fun fault => ⟨chunk.name, fault⟩

/-- The region walks nest no deeper than this. -/
def maxRegionDepth : ℕ := 256

/-! ## Control-flow targets -/

/-- Whether the operand of an `If`, `Else` or `Loop` is a later position of the chunk. -/
def forwardTarget (len ip : ℕ) (op : Op) : Except Fault Unit :=
  match op with
  | .ifOp t | .elseOp t | .loop t =>
    if t ≤ ip ∨ len < t then .error (.nonForwardTarget op ip t len) else .ok ()
  | _ => .ok ()

/-- Apply a check to the instructions of a list, which begins at a position. -/
def forEachOp (check : ℕ → Op → Except Fault Unit) : ℕ → List Op → Except Fault Unit
  | _, [] => .ok ()
  | ip, op :: rest => do
    check ip op
    forEachOp check (ip + 1) rest

def checkForwardControlFlowTargets (chunk : Chunk) : Except Fault Unit :=
  forEachOp (forwardTarget chunk.ops.length) 0 chunk.ops

/-! ## Pass 1: nesting and operands -/

/-- An open `If`: where it stands, its operand, and whether its `Else` has been seen. -/
structure IfFrame where
  ip : ℕ
  target : ℕ
  elseSeen : Bool
  deriving DecidableEq, Repr

/-- The state of the pass; the stacks have the innermost block first. -/
structure NestState where
  blockStack : List (BlockKind × ℕ)
  loopDepth : ℕ
  ifStack : List IfFrame
  deriving DecidableEq, Repr

/-- The exit of the innermost open loop. -/
def enclosingLoopExit (ops : List Op) (blockStack : List (BlockKind × ℕ)) : Option ℕ :=
  blockStack.findSome? fun b =>
    match b.1, ops[b.2]? with
    | .loopBlock, some (.loop exit) => some exit
    | _, _ => none

def checkElse (ops : List Op) (st : NestState) (ip target : ℕ) : Except Fault NestState :=
  match st.blockStack with
  | (.ifBlock, _) :: _ =>
    match st.ifStack with
    | frame :: outer =>
      if frame.target ≠ ip + 1 then
        .error (.ifTargetNotElseBody frame.ip frame.target ip)
      else
        match ops[target]? with
        | none => .error (.targetOutOfBounds (.elseOp target) ip ops.length)
        | some .endIf => .ok { st with ifStack := { frame with elseSeen := true } :: outer }
        | some found => .error (.elseTargetNotEndIf ip target found)
    | [] => .error (.elseWithoutIf ip)
  | _ => .error (.elseWithoutIf ip)

def checkEndIf (st : NestState) (ip : ℕ) : Except Fault NestState :=
  match st.ifStack with
  | [] => .error (.endIfWithoutIf ip)
  | frame :: outer =>
    if !frame.elseSeen && frame.target != ip then
      .error (.ifTargetNotEndIf frame.ip ip frame.target)
    else
      match st.blockStack with
      | (.ifBlock, _) :: rest => .ok { st with blockStack := rest, ifStack := outer }
      | (.loopBlock, _) :: _ => .error (.endIfInsideLoop ip)
      | [] => .error (.endIfWithoutIf ip)

def checkEndLoop (ops : List Op) (st : NestState) (ip target : ℕ) : Except Fault NestState :=
  match st.blockStack with
  | (.loopBlock, loopIp) :: rest =>
    if target ≠ loopIp + 1 then .error (.endLoopBackEdge ip target loopIp)
    else
      let closed : NestState := { st with blockStack := rest, loopDepth := st.loopDepth - 1 }
      match ops[loopIp]? with
      | some (.loop exit) =>
        if exit ≠ ip + 1 then .error (.loopExit loopIp exit ip) else .ok closed
      | _ => .ok closed
  | (.ifBlock, _) :: _ => .error (.endLoopInsideIf ip)
  | [] => .error (.endLoopWithoutLoop ip)

/-- `Break` and `BreakIf`. -/
def checkBreak (ops : List Op) (st : NestState) (ip : ℕ) (op : Op) (target : ℕ) :
    Except Fault NestState :=
  if st.loopDepth = 0 then .error (.breakOutsideLoop op ip)
  else if ops.length < target then .error (.targetOutOfBounds op ip ops.length)
  else
    match enclosingLoopExit ops st.blockStack with
    | some exit => if target ≠ exit then .error (.breakTarget op ip exit) else .ok st
    | none => .ok st

/-- The delimiters; any other instruction leaves the open blocks as they are. -/
def checkDelimiter (ops : List Op) (st : NestState) (ip : ℕ) (op : Op) : Except Fault NestState :=
  match op with
  | .ifOp target =>
    if ops.length < target then .error (.targetOutOfBounds op ip ops.length)
    else .ok { st with
      blockStack := (.ifBlock, ip) :: st.blockStack
      ifStack := ⟨ip, target, false⟩ :: st.ifStack }
  | .elseOp target => checkElse ops st ip target
  | .endIf => checkEndIf st ip
  | .loop target =>
    if ops.length < target then .error (.targetOutOfBounds op ip ops.length)
    else .ok { st with
      blockStack := (.loopBlock, ip) :: st.blockStack
      loopDepth := st.loopDepth + 1 }
  | .endLoop target => checkEndLoop ops st ip target
  | .break target | .breakIf target => checkBreak ops st ip op target
  | _ => .ok st

/-- Check an index against the length of a table. -/
def inTable (idx len : ℕ) (fault : Fault) : Except Fault Unit :=
  if len ≤ idx then .error fault else .ok ()

/-- The operands of the instructions that are not delimiters. -/
def checkOperands (m : Module) (chunk : Chunk) (ip : ℕ) (op : Op) : Except Fault Unit :=
  let dataLen := m.dataLayout.elim 0 (·.slots.length)
  match op with
  | .getData slot | .setData slot =>
    if dataLen = 0 then .error (.noDataLayout op ip)
    else inTable slot dataLen (.dataSlotOutOfRange op ip slot dataLen)
  | .getDataIndexed base len | .setDataIndexed base len =>
    if dataLen < base + len then .error (.dataSlotOutOfRange op ip (base + len) dataLen)
    else .ok ()
  | .const idx | .isStruct idx | .getField (.boxed idx) =>
    inTable idx chunk.constants.length (.constantOutOfRange op ip chunk.constants.length)
  | .isEnum e v d =>
    let len := chunk.constants.length
    if len ≤ e ∨ len ≤ v ∨ len ≤ d then .error (.constantOutOfRange op ip len) else .ok ()
  | .call callee argCount =>
    match m.chunks[callee]? with
    | none => .error (.callTargetOutOfRange ip callee m.chunks.length)
    | some c =>
      if c.localCount < argCount then .error (.callArity ip argCount callee c.localCount)
      else .ok ()
  | .callVerifiedNative idx _ | .callExternalNative idx _ =>
    inTable idx m.nativeNames.length (.nativeOutOfRange op ip m.nativeNames.length)
  | .wordToFixed fb | .fixedToWord fb | .fixedMul fb | .fixedDiv fb | .checkedMul fb
  | .checkedDiv fb =>
    inTable fb (2 ^ m.wordBitsLog2) (.fracBitsOutOfRange op ip (2 ^ m.wordBitsLog2))
  | .getLocal slot | .setLocal slot =>
    inTable slot chunk.localCount (.localOutOfRange op ip chunk.localCount)
  | .newComposite (.boxed .struct _ metaIdx) | .newComposite (.boxed .enum _ metaIdx) =>
    inTable metaIdx chunk.structTemplates.length
      (.templateOutOfRange ip metaIdx chunk.structTemplates.length)
  | _ => .ok ()

/-- The first pass, over the instructions from a position on. -/
def nestingPass (m : Module) (chunk : Chunk) : ℕ → NestState → List Op → Except Fault NestState
  | _, st, [] => .ok st
  | ip, st, op :: rest => do
    let st ← checkDelimiter chunk.ops st ip op
    checkOperands m chunk ip op
    nestingPass m chunk (ip + 1) st rest

/-- Pass 1: the blocks are nested and closed, and the operands are in range. -/
def checkNesting (m : Module) (chunk : Chunk) : Except Fault Unit := do
  let st ← nestingPass m chunk 0 ⟨[], 0, []⟩ chunk.ops
  match st.blockStack with
  | (kind, ip) :: _ => .error (.unclosedBlock kind ip)
  | [] => .ok ()

/-! ## Pass 2: the categories of chunks -/

/-- A category that may not contain an instruction. -/
def forbid (chunk : Chunk) (op : Op) : Except Fault Unit :=
  if chunk.ops.count op = 0 then .ok ()
  else .error (.forbiddenInstruction chunk.blockType op (chunk.ops.count op))

/-- A category that must contain an instruction exactly once. -/
def requireOnce (chunk : Chunk) (op : Op) : Except Fault Unit :=
  if chunk.ops.count op = 1 then .ok () else .error (.markerCount op (chunk.ops.count op))

/-- Whether the chunk yields itself or calls a chunk that always does. -/
def hasEffectiveYield (always : List ℕ) (chunk : Chunk) : Bool :=
  chunk.ops.any fun op =>
    match op with
    | .yield => true
    | .call g _ => g ∈ always
    | _ => false

def requireYield (always : List ℕ) (chunk : Chunk) : Except Fault Unit :=
  if hasEffectiveYield always chunk then .ok () else .error (.noYield chunk.blockType)

/-- Pass 2: the instructions that the category of the chunk demands and forbids. -/
def checkBlockType (always : List ℕ) (chunk : Chunk) : Except Fault Unit :=
  match chunk.blockType with
  | .func => do
    forbid chunk .yield
    forbid chunk .stream
    forbid chunk .reset
  | .reentrant => do
    requireYield always chunk
    forbid chunk .stream
    forbid chunk .reset
  | .stream => do
    requireOnce chunk .stream
    requireOnce chunk .reset
    requireYield always chunk

end Keleusma
