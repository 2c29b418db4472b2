import Keleusma.Logic.Overflow
import Keleusma.Verify.Coverage

/-!
# The typed operand-stack pass

An abstract interpreter walks a chunk over states that give the flat shape of every operand and
every local slot, where it is known. It refuses an underflow, an operand taken from below the
enclosing loop, branches that join at different heights, a loop body that does not restore its
operands, and a flat access that cannot lie within its body. A shape that is not known is `top`
and defers to the runtime. The pass also checks the layout tables of the module.

The source applies an instruction with pushes and pops on the abstract stack. Here `opResults`
gives the shapes that replace the operands the instruction takes; `applyOp` puts them in place.
-/

namespace Keleusma

open Saturating (u32Max)

/-- The abstract shape of a value. -/
inductive AbsVal
  | scalar (kind : ScalarKind)
  /-- A flat body: its kind, its length in bytes, and the offsets of its text fields when its
  layout is known. -/
  | flat (kind : CompositeKind) (size : ℕ) (text : Option (List ℕ))
  | top
  deriving DecidableEq, Repr

/-- The widths of the target. -/
structure TargetWidths where
  wb : ℕ
  fb : ℕ
  ab : ℕ
  deriving DecidableEq, Repr

def TargetWidths.size (w : TargetWidths) (kind : ScalarKind) : ℕ :=
  kind.sizeInBytes w.wb w.fb w.ab

namespace AbsVal

/-- The bytes the value occupies inside a packed body. -/
def packedSize (w : TargetWidths) : AbsVal → Option ℕ
  | scalar k => some (w.size k)
  | flat _ size _ => some size
  | top => none

/-- The join: two flat bodies of one kind and size keep them, and keep a layout they share;
otherwise different values join to `top`. -/
def join : AbsVal → AbsVal → AbsVal
  | flat k₁ s₁ t₁, flat k₂ s₂ t₂ =>
    if k₁ = k₂ ∧ s₁ = s₂ then flat k₁ s₁ (if t₁ = t₂ then t₁ else none) else top
  | a, b => if a = b then a else top

def fromWire : WireShape → AbsVal
  | .top => top
  | .scalar kind => (ScalarKind.fromTag kind).elim top scalar
  | .flat kind size => (CompositeKind.fromTag kind).elim top fun k => flat k size none

end AbsVal

/-- The shapes a chunk is seeded with. -/
structure ChunkSig where
  locals : List AbsVal
  resume : Option AbsVal

namespace ChunkSig

def default : ChunkSig := ⟨[], none⟩

def fromSignature (sig : ChunkSignature) : ChunkSig where
  locals := sig.params.map AbsVal.fromWire
  resume := if sig.resume = .top then none else some (AbsVal.fromWire sig.resume)

def localShape (sig : ChunkSig) (i : ℕ) : AbsVal := sig.locals.getD i .top

def resumeShape (sig : ChunkSig) : AbsVal := sig.resume.getD .top

end ChunkSig

/-- What is fixed while a chunk is interpreted. -/
structure TypedCtx where
  chunk : Chunk
  sig : ChunkSig
  moduleSigs : List ChunkSignature
  enumBodySizes : List ℕ
  nativeReturnShapes : List WireShape
  widths : TargetWidths

/-- The shapes at a program point; the operand stack has its top last. -/
structure AbsState where
  stack : List AbsVal
  locals : List AbsVal
  deriving DecidableEq, Repr

/-! ## Joins -/

def joinStacks (a b : List AbsVal) (ip : ℕ) : Except TypedError (List AbsVal) :=
  if a.length ≠ b.length then .error (.branchHeightMismatch ip a.length b.length)
  else .ok (List.zipWith AbsVal.join a b)

def joinLocals (a b : List AbsVal) : List AbsVal :=
  (List.range (max a.length b.length)).map fun i => (a.getD i .top).join (b.getD i .top)

def joinStates (a b : AbsState) (ip : ℕ) : Except TypedError AbsState := do
  return ⟨← joinStacks a.stack b.stack ip, joinLocals a.locals b.locals⟩

/-- Join the ends of two regions; an end that does not fall through yields the other. -/
def joinEnds (a b : Option AbsState) (ip : ℕ) : Except TypedError (Option AbsState) :=
  match a, b with
  | some a, some b => some <$> joinStates a b ip
  | some a, none => .ok (some a)
  | none, some b => .ok (some b)
  | none, none => .ok none

def joinAllFrom (acc : AbsState) (ip : ℕ) : List AbsState → Except TypedError AbsState
  | [] => .ok acc
  | s :: rest => do joinAllFrom (← joinStates acc s ip) ip rest

/-- Join the states at the breaks of a loop. -/
def joinAll (states : List AbsState) (ip : ℕ) : Except TypedError (Option AbsState) :=
  match states with
  | [] => .ok none
  | s :: rest => some <$> joinAllFrom s ip rest

/-! ## Flat accesses -/

/-- A scalar field lies within the body. -/
def checkFlatScalar (w : TargetWidths) (v : AbsVal) (offset : ℕ) (kind : ScalarKind) (ip : ℕ) :
    Except TypedError Unit :=
  match v with
  | .flat _ size _ =>
    if size < offset + w.size kind then
      .error (.offsetOutOfBounds ip offset (offset + w.size kind) size)
    else .ok ()
  | .scalar _ => .error (.expectedComposite ip)
  | .top => .ok ()

/-- A nested body lies within its parent. -/
def checkFlatNested (v : AbsVal) (offset size ip : ℕ) : Except TypedError Unit :=
  match v with
  | .flat _ parent _ =>
    if parent < offset + size then .error (.offsetOutOfBounds ip offset (offset + size) parent)
    else .ok ()
  | .scalar _ => .error (.expectedComposite ip)
  | .top => .ok ()

/-- The elements divide the array. -/
def checkFlatArrayStride (arr : AbsVal) (elementSize ip : ℕ) : Except TypedError Unit :=
  match arr with
  | .flat _ size _ =>
    if elementSize ≠ 0 ∧ size % elementSize ≠ 0 then
      .error (.arrayStrideMismatch ip elementSize size)
    else .ok ()
  | .scalar _ => .error (.expectedComposite ip)
  | .top => .ok ()

/-- The text offsets of a body packed from elements, the first of them at an offset. -/
def builtTextLayoutFrom (w : TargetWidths) : ℕ → List AbsVal → Option (List ℕ)
  | _, [] => some []
  | at_, e :: rest => do
    let own ← match e with
      | .scalar .text => some [at_]
      | .scalar _ => some []
      | .flat _ _ (some inner) => some (inner.map (Saturating.add u32Max at_ ·))
      | _ => none
    let size ← e.packedSize w
    return own ++ (← builtTextLayoutFrom w (Saturating.add u32Max at_ size) rest)

def builtTextLayout (w : TargetWidths) (elements : List AbsVal) : Option (List ℕ) :=
  builtTextLayoutFrom w 0 elements

/-- The layout of a nested body, when that of its parent is known. -/
def nestedTextLayout (parent : AbsVal) (offset size : ℕ) : Option (List ℕ) :=
  match parent with
  | .flat _ _ (some offsets) =>
    some ((offsets.filter fun o => offset ≤ o ∧ o < Saturating.add u32Max offset size).map (· - offset))
  | _ => none

/-- The layout that the elements of an array share. -/
def elementTextLayout (array : AbsVal) (size : ℕ) : Option (List ℕ) :=
  match array with
  | .flat _ total (some _) =>
    if size = 0 ∨ total % size ≠ 0 then none
    else do
      let first ← nestedTextLayout array 0 size
      if (List.range (total / size)).all fun e =>
          e == 0 || nestedTextLayout array (e * size) size == some first then
        some first
      else none
  | _ => none

/-- A text field is read where the body is known to hold one, when its layout is known. -/
def checkTextField (v : AbsVal) (offset : ℕ) (kind : ScalarKind) (ip : ℕ) :
    Except TypedError Unit :=
  match kind, v with
  | .text, .flat _ _ (some offsets) =>
    if offset ∈ offsets then .ok () else .error (.textFieldMismatch ip offset)
  | _, _ => .ok ()

/-- Every element of an array that text is read from is text, when its layout is known. -/
def checkTextElements (array : AbsVal) (elem : ℕ) (kind : ScalarKind) (ip : ℕ) :
    Except TypedError Unit :=
  match kind, array with
  | .text, .flat _ size (some offsets) =>
    if elem = 0 then .ok ()
    else
      match (List.range (size / elem)).find? fun e => e * elem ∉ offsets with
      | some e => .error (.textFieldMismatch ip (e * elem))
      | none => .ok ()
  | _, _ => .ok ()

/-- Whether a value may be stored where a shape is declared. -/
def shapesCompatible : AbsVal → AbsVal → Bool
  | .top, _ | _, .top => true
  | .scalar _, .scalar _ => true
  | .flat k₁ s₁ _, .flat k₂ s₂ _ => k₁ == k₂ && s₁ == s₂
  | _, _ => false

def constAbs : Option ConstValue → AbsVal
  | some .unit => .scalar .unit
  | some (.bool _) => .scalar .bool
  | some (.int _) => .scalar .int
  | some (.byte _) => .scalar .byte
  | some (.fixed _) => .scalar .fixed
  | some (.float _) => .scalar .float
  | some (.staticStr _) => .scalar .text
  | _ => .top

/-! ## Instructions -/

/-- The shape of a body built from elements. -/
def newCompositeShape (ctx : TypedCtx) (kind : CompositeKind) (byteSize ip : ℕ)
    (elements : List AbsVal) : Except TypedError AbsVal :=
  if kind = .enum then
    if !ctx.enumBodySizes.isEmpty && byteSize ∉ ctx.enumBodySizes then
      .error (.enumBodySizeMismatch ip byteSize)
    else .ok (.flat kind byteSize none)
  else
    let sizes := elements.map (·.packedSize ctx.widths)
    let computed := (sizes.reverse.filterMap id).foldl (Saturating.add u32Max) 0
    if sizes.all (·.isSome) && computed != byteSize then
      .error (.newCompositeSizeMismatch ip byteSize computed)
    else .ok (.flat kind byteSize (builtTextLayout ctx.widths elements))

/-- The shapes of the words that follow a read or a check with a bounds outcome. -/
def boundsWords (n : ℕ) : List AbsVal := List.replicate n (.scalar .int)

/-- The shape of a scalar field of a body. -/
def fieldShape (ctx : TypedCtx) (v : AbsVal) (offset : ℕ) (kind : ScalarKind) (ip : ℕ) :
    Except TypedError (List AbsVal) := do
  checkFlatScalar ctx.widths v offset kind ip
  checkTextField v offset kind ip
  return [.scalar kind]

/-- The shape of a nested body. -/
def nestedShape (v : AbsVal) (offset size : ℕ) (variant : CompositeKind) (ip : ℕ) :
    Except TypedError (List AbsVal) := do
  checkFlatNested v offset size ip
  return [.flat variant size (nestedTextLayout v offset size)]

/-- The shapes of an indexed read. -/
def indexShapes (ctx : TypedCtx) (arr : AbsVal) (elem : ArrayElem) (ip : ℕ) :
    Except TypedError (List AbsVal) :=
  match elem with
  | .flat kind => do
    checkFlatArrayStride arr (ctx.widths.size kind) ip
    checkTextElements arr (ctx.widths.size kind) kind ip
    return .scalar kind :: boundsWords (if elem.hasBoundsOutcome then 6 else 0)
  | .flatNested size variant => do
    checkFlatArrayStride arr size ip
    return .flat variant size (elementTextLayout arr size) :: boundsWords 6
  | .boxed => return .top :: boundsWords 6

/-- Check the arguments of a call against the declared parameter shapes, by position. -/
def checkCallArgs (ip callee : ℕ) : ℕ → List WireShape → List AbsVal → Except TypedError Unit
  | i, declared :: params, actual :: args =>
    if shapesCompatible actual (AbsVal.fromWire declared) then
      checkCallArgs ip callee (i + 1) params args
    else .error (.callArgMismatch ip callee i)
  | _, _, _ => .ok ()

/-- The shape of the result of a call. -/
def callShape (ctx : TypedCtx) (callee : ℕ) (args : List AbsVal) (ip : ℕ) :
    Except TypedError (List AbsVal) :=
  match ctx.moduleSigs[callee]? with
  | some sig => do
    checkCallArgs ip callee 0 sig.params args
    return [AbsVal.fromWire sig.ret]
  | none => return [.top]

/-- The shapes an instruction leaves in place of its operands, given in order. -/
def opResults (ctx : TypedCtx) (op : Op) (ip : ℕ) (args locals : List AbsVal) :
    Except TypedError (List AbsVal) :=
  let arg (i : ℕ) : AbsVal := args.getD i .top
  match op with
  | .dup => return [arg 0, arg 0]
  | .isEnum _ _ _ | .isStruct _ => return [arg 0, .scalar .bool]
  | .boundsCheck _ => return arg 0 :: boundsWords 5
  | .getDataIndexed _ _ => return .top :: boundsWords 6
  | .setDataIndexed _ _ => return boundsWords 6
  | .getLocal i => return [locals.getD i .top]
  | .setLocal i =>
    if shapesCompatible (arg 0) (ctx.sig.localShape i) then return []
    else .error (.localTypeMismatch ip i)
  | .yield => return [ctx.sig.resumeShape]
  | .const idx => return [constAbs ctx.chunk.constants[idx]?]
  | .newComposite (.flat kind _ byteSize) => do
    return [← newCompositeShape ctx kind byteSize ip args]
  | .getField (.flat offset kind) | .getTupleField (.flat offset kind)
  | .getEnumField (.flat offset kind) => fieldShape ctx (arg 0) offset kind ip
  | .getField (.flatNested offset size variant) | .getTupleField (.flatNested offset size variant)
  | .getEnumField (.flatNested offset size variant) => nestedShape (arg 0) offset size variant ip
  | .getIndex elem => indexShapes ctx (arg 0) elem ip
  | .call callee _ => callShape ctx callee args ip
  | .callVerifiedNative idx n | .callExternalNative idx n =>
    let value := (ctx.nativeReturnShapes[idx]?).elim .top AbsVal.fromWire
    return if nativeReifies n then [value, .scalar .int] else [value]
  | op => return List.replicate (opProduces op) .top

/-- What an instruction does to the shapes of the local slots. -/
def opLocals (op : Op) (args locals : List AbsVal) : List AbsVal :=
  match op with
  | .setLocal i => locals.set i (args.getD 0 .top)
  | _ => locals

/-- Apply an instruction to the abstract state. -/
def applyOp (ctx : TypedCtx) (op : Op) (ip : ℕ) (st : AbsState) : Except TypedError AbsState :=
  if st.stack.length < opRequires op then .error (.stackUnderflow ip)
  else do
    let below := st.stack.length - opRequires op
    let args := st.stack.drop below
    let results ← opResults ctx op ip args st.locals
    return ⟨st.stack.take below ++ results, opLocals op args st.locals⟩

/-- Refuse an instruction that takes operands from below the enclosing loop. -/
def checkFloor (op : Op) (height floor ip : ℕ) : Except TypedError Unit :=
  if floor = 0 then .ok ()
  else if height < floor + opRequires op then
    .error (.loopFloorBreach ip floor height (opRequires op))
  else .ok ()

/-- Check the floor, and apply an instruction. -/
def applyAbove (ctx : TypedCtx) (op : Op) (ip floor : ℕ) (st : AbsState) :
    Except TypedError AbsState := do
  checkFloor op st.stack.length floor ip
  applyOp ctx op ip st

/-! ## Regions -/

/-- Forget the shapes of the slots that the instructions of a range write. -/
def invalidateWrittenLocals (ops : List Op) (start stop : ℕ) (locals : List AbsVal) :
    List AbsVal :=
  ((ops.take stop).drop start).foldl (fun locals op =>
    match op with
    | .setLocal i => locals.set i .top
    | _ => locals) locals

/-- The fall-through state of a body and the states at its breaks. -/
abbrev BodyResult := Option AbsState × List AbsState

/-- A loop body that falls through restores the operands of the loop head. -/
def checkNeutral (ip : ℕ) (head : AbsState) (bodyEnd : Option AbsState) :
    Except TypedError Unit :=
  match bodyEnd with
  | some be =>
    if be.stack = head.stack then .ok ()
    else .error (.loopNotNeutral ip head.stack.length be.stack.length)
  | none => .ok ()

/-- Widen the local shapes at a loop head until the body keeps them. When the rounds are used
up, the slots that the body writes are forgotten, and the body is interpreted once more. -/
def loopFixpoint (body : AbsState → Except TypedError BodyResult)
    (invalidate : List AbsVal → List AbsVal) (ip : ℕ) :
    ℕ → AbsState → Except TypedError (AbsState × BodyResult)
  | rounds, head => do
    let (bodyEnd, breaks) ← body head
    checkNeutral ip head bodyEnd
    match bodyEnd with
    | none => return (head, bodyEnd, breaks)
    | some be =>
      let widened := joinLocals head.locals be.locals
      if widened = head.locals then return (head, bodyEnd, breaks)
      else
        match rounds with
        | 0 =>
          let head := { head with locals := invalidate head.locals }
          let (bodyEnd, breaks) ← body head
          checkNeutral ip head bodyEnd
          return (head, bodyEnd, breaks)
        | rounds + 1 => loopFixpoint body invalidate ip rounds { head with locals := widened }

/-- The interpreter, over the instructions from `ip` up to `stop`. The result is `none` when no
path falls through; the second component collects the states at the breaks. -/
def interpRegion (ctx : TypedCtx) :
    ℕ → ℕ → ℕ → AbsState → List AbsState → ℕ → Except TypedError BodyResult
  | 0, _, _, _, _, _ => .error .panicked
  | fuel + 1, ip, stop, state, breaks, floor =>
    if stop ≤ ip then .ok (some state, breaks)
    else
      match ctx.chunk.ops[ip]? with
      | none => .error .panicked
      | some (.trap kind) => do
        let _ ← applyAbove ctx (.trap kind) ip floor state
        return (none, breaks)
      | some .return => return (none, breaks)
      | some (.break _) => return (none, breaks ++ [state])
      | some (.breakIf target) => do
        let state ← applyAbove ctx (.breakIf target) ip floor state
        interpRegion ctx fuel (ip + 1) stop state (breaks ++ [state]) floor
      | some (.ifOp target) => do
        let state ← applyAbove ctx (.ifOp target) ip floor state
        if ctx.chunk.ops.length < target then throw .panicked
        else
          match elseBefore ctx.chunk.ops target with
          | some endif =>
            let (thenEnd, breaks) ←
              interpRegion ctx fuel (ip + 1) (target - 1) state breaks floor
            let (elseEnd, breaks) ← interpRegion ctx fuel target endif state breaks floor
            match ← joinEnds thenEnd elseEnd ip with
            | some state => interpRegion ctx fuel (endif + 1) stop state breaks floor
            | none => return (none, breaks)
          | none =>
            let (thenEnd, breaks) ← interpRegion ctx fuel (ip + 1) target state breaks floor
            match ← joinEnds thenEnd (some state) ip with
            | some state => interpRegion ctx fuel (target + 1) stop state breaks floor
            | none => return (none, breaks)
      | some (.loop exit) => do
        let (head, bodyEnd, loopBreaks) ← loopFixpoint
          (fun head => interpRegion ctx fuel (ip + 1) (exit - 1) head [] state.stack.length)
          (invalidateWrittenLocals ctx.chunk.ops (ip + 1) (exit - 1)) ip
          (state.locals.length + 2) state
        let state := (← joinAll loopBreaks ip).getD (bodyEnd.getD head)
        interpRegion ctx fuel exit stop state breaks floor
      | some op => do
        let state ← applyAbove ctx op ip floor state
        interpRegion ctx fuel (ip + 1) stop state breaks floor

/-- The interpreter over nothing. -/
theorem interpRegion_nil {ctx : TypedCtx} {fuel ip floor : ℕ} {state : AbsState}
    {breaks : List AbsState} :
    interpRegion ctx (fuel + 1) ip ip state breaks floor = .ok (some state, breaks) := by
  rw [interpRegion, if_pos (Nat.le_refl ip)]

/-! ## The layout tables -/

/-- Check the slots of the shared buffer, from a slot on. -/
def validateSharedSlots (w : TargetWidths) (buffer : ℕ) :
    ℕ → List SharedSlotLayout → Except TypedError Unit
  | _, [] => .ok ()
  | slot, sl :: rest => do
    let size ←
      if sl.kind &&& sharedSlotCompositeFlag ≠ 0 then pure sl.len
      else
        match ScalarKind.fromTag sl.kind with
        | some k => pure (w.size k)
        | none => throw (.sharedSlotOutOfBounds slot sl.offset 0 buffer)
    if buffer < sl.offset + size then throw (.sharedSlotOutOfBounds slot sl.offset size buffer)
    else validateSharedSlots w buffer (slot + 1) rest

/-- Check the slots of the persistent pool, from an index on: in range, and ascending. -/
def validatePrivateComposites (dataLen pool : ℕ) :
    ℕ → Option PrivateCompositeSlot → List PrivateCompositeSlot → Except TypedError Unit
  | _, _, [] => .ok ()
  | index, prev, e :: rest =>
    let invalid := .error ∘ TypedError.privateCompositeLayoutInvalid index e.slot
    if dataLen ≤ e.slot then invalid "slot index out of range"
    else if pool ≤ e.offset then invalid "pool offset outside the persistent composite pool"
    else if prev.any fun p => e.slot ≤ p.slot then invalid "slots are not strictly ascending"
    else if prev.any fun p => e.offset ≤ p.offset then
      invalid "pool offsets are not strictly ascending"
    else validatePrivateComposites dataLen pool (index + 1) (some e) rest

def validateDataLayout (m : Module) (w : TargetWidths) : Except TypedError Unit :=
  match m.dataLayout with
  | none => .ok ()
  | some layout => do
    let shared (s : DataSlot) : Bool := s.visibility == .sharedSlot
    let totalShared := (layout.slots.filter shared).length
    let layoutLen := layout.sharedLayout.length
    if (layout.slots.takeWhile shared).length ≠ totalShared then
      throw (.sharedLayoutCountMismatch totalShared layoutLen
        "shared slots are not a contiguous prefix of the slot array")
    else if layoutLen ≠ totalShared then
      throw (.sharedLayoutCountMismatch totalShared layoutLen
        "shared-slot layout entry count does not match the shared-slot count")
    else
      validateSharedSlots w m.sharedDataBytes 0 layout.sharedLayout
      validatePrivateComposites layout.slots.length m.persistentCompositeBytes 0 none
        layout.privateCompositeLayout

/-! ## The pass -/

/-- The state a chunk is entered in. -/
def entryState (ctx : TypedCtx) : AbsState where
  stack := []
  locals := (List.range ctx.chunk.localCount).map ctx.sig.localShape

/-- Interpret a chunk. -/
def checkChunkSeeded (ctx : TypedCtx) : Except TypedError Unit := do
  let _ ← interpRegion ctx (ctx.chunk.ops.length + 1) 0 ctx.chunk.ops.length (entryState ctx) [] 0
  return

namespace Module

def targetWidths (m : Module) : TargetWidths := ⟨m.wordBytes, m.floatBytes, m.addrBytes⟩

/-- The body sizes of the declared enums. -/
def enumBodySizes (m : Module) : List ℕ :=
  m.enumLayouts.map fun el => Saturating.add u32Max m.wordBytes el.minPayload

/-- What the typed pass fixes for the chunk of an index. -/
def typedCtx (m : Module) (i : ℕ) (chunk : Chunk) : TypedCtx where
  chunk := chunk
  sig := (m.signatures[i]?).elim ChunkSig.default ChunkSig.fromSignature
  moduleSigs := m.signatures
  enumBodySizes := m.enumBodySizes
  nativeReturnShapes := m.nativeReturnShapes
  widths := m.targetWidths

end Module

/-- Interpret the chunks of a module, from an index on. -/
def typedCheckChunks (m : Module) : ℕ → List Chunk → Except TypedError Unit
  | _, [] => .ok ()
  | i, chunk :: rest => do
    checkChunkSeeded (m.typedCtx i chunk)
    typedCheckChunks m (i + 1) rest

def typedCheckModule (m : Module) : Except TypedError Unit := do
  validateDataLayout m m.targetWidths
  typedCheckChunks m 0 m.chunks

end Keleusma
