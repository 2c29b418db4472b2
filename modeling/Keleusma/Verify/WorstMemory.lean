import Keleusma.Verify.CallOrder
import Keleusma.Verify.WorstCase

/-!
# Worst-case memory usage

The verifier walks over the regions of a chunk with the height of the operand stack, above that at
the start of the region, and the bytes allocated so far. Of two ways through a branch it takes the
higher and the larger one. A call brings what its chunk needs, so that the chunks are analysed in
the order of calls. Signed and unsigned sums of 32 bits must not overflow.
-/

namespace Keleusma

open Saturating (u32Max)

/-! ## Numbers -/

/-- A result of signed arithmetic with 32 bits, which panics where it overflows. -/
def i32 (x : ℤ) : Except CostFault ℤ :=
  if -2 ^ 31 ≤ x ∧ x < 2 ^ 31 then .ok x else .error .panicked

/-- A result of unsigned arithmetic with 32 bits. -/
def u32 (n : ℕ) : Except CostFault ℕ := if n ≤ u32Max then .ok n else .error .panicked

/-- An unsigned number read as a signed one. -/
def asI32 (n : ℕ) : ℤ := Int.bmod n (2 ^ 32)

/-! ## What instructions allocate -/

/-- The bytes that an instruction allocates at its site; text is left to another analysis. -/
def Op.heapAlloc : Op → ℕ
  | .newComposite op => op.allocBytes
  | .getIndex (.flatNested size _) => size
  | _ => 0

/-- The bytes of the copy that a read of a shared slot takes of a composite. -/
def slotCopyout (layout : List SharedSlotLayout) (slot : ℕ) : ℕ :=
  (layout[slot]?).elim 0 fun e => if e.kind &&& sharedSlotCompositeFlag ≠ 0 then e.len else 0

/-- The bytes of the copies that an instruction takes of shared composites. -/
def sharedCompositeCopyoutBytes (layout : List SharedSlotLayout) : Op → ℕ
  | .getData slot => slotCopyout layout slot
  | .getDataIndexed base len =>
    ((List.range len).map fun i => slotCopyout layout (base + i)).foldl max 0
  | _ => 0

/-- What the walk knows of calls: the stack and heap bytes of the chunks analysed before, and the
heap bytes that the host attests for natives. -/
structure CallResolver where
  chunkWcmu : ℕ → Option (ℕ × ℕ)
  nativeWcmu : List ℕ
  sharedLayout : List SharedSlotLayout

def CallResolver.resolveChunk (r : CallResolver) (idx : ℕ) : ℕ × ℕ := (r.chunkWcmu idx).getD (0, 0)

def CallResolver.resolveNative (r : CallResolver) (idx : ℕ) : ℕ := r.nativeWcmu.getD idx 0

/-- The bytes that one execution of an instruction allocates. -/
def opIterationHeap (r : CallResolver) (op : Op) : ℕ :=
  Saturating.add u32Max op.heapAlloc (sharedCompositeCopyoutBytes r.sharedLayout op)

/-! ## The walk -/

/-- What a break carries out of a region: the peak and the heap so far, and the height. -/
structure McuResult where
  peakAboveInitial : ℕ
  delta : ℤ
  heapTotal : ℕ
  deriving DecidableEq, Repr

/-- What a region needs, and the height at its end if a path comes to it. -/
structure McuOutcome where
  peakAboveInitial : ℕ
  heapTotal : ℕ
  delta : Option ℤ
  deriving DecidableEq, Repr

/-- The height, the peak and the heap on the way through a region. -/
structure McuState where
  offset : ℤ
  peak : ℕ
  heap : ℕ
  deriving DecidableEq, Repr

namespace McuState

/-- A path that ends here. -/
def exits (s : McuState) : McuOutcome := ⟨s.peak, s.heap, none⟩

/-- What a break takes along. -/
def leaving (s : McuState) : McuResult := ⟨s.peak, s.offset, s.heap⟩

/-- An instruction rises above the height by its growth and falls back by its shrink. -/
def account (op : Op) (heap : ℕ) (s : McuState) : Except CostFault McuState := do
  let during ← i32 (s.offset + op.stackGrowth)
  let offset ← i32 (s.offset + (op.stackGrowth - op.stackShrink))
  return ⟨offset, max s.peak during.toNat, Saturating.add u32Max s.heap heap⟩

/-- A call puts the frame of its chunk on the stack below its arguments. -/
def call (calleeSlots : ℤ) (n heap : ℕ) (s : McuState) : Except CostFault McuState := do
  let raised ← i32 (s.offset + calleeSlots)
  let during ← i32 (raised - n)
  let result ← i32 (s.offset + 1)
  let offset ← i32 (s.offset + (1 - n))
  return ⟨offset, max s.peak (max during result).toNat, Saturating.add u32Max s.heap heap⟩

/-- What follows a region goes on from its peak and its heap. -/
def into (s : McuState) (o : McuOutcome) : McuState :=
  { s with peak := max s.peak o.peakAboveInitial, heap := Saturating.add u32Max s.heap o.heapTotal }

end McuState

/-- A walk over a region: the position, the end, the state, the breaks so far and the nesting. -/
abbrev McuWalk := ℕ → ℕ → McuState → List McuResult → ℕ → Except CostFault (McuOutcome × List McuResult)

/-- A break of a region above the start of the one around. -/
def McuResult.lift (offset : ℤ) (b : McuResult) : Except CostFault McuResult := do
  let peak ← u32 (offset.toNat + b.peakAboveInitial)
  let delta ← i32 (offset + b.delta)
  return ⟨peak, delta, b.heapTotal⟩

/-- The outcome of a region above the start of the one around. -/
def McuOutcome.lift (offset : ℤ) (o : McuOutcome) : Except CostFault McuOutcome := do
  let peak ← u32 (offset.toNat + o.peakAboveInitial)
  match o.delta with
  | none => return ⟨peak, o.heapTotal, none⟩
  | some d => do
    let delta ← i32 (offset + d)
    return ⟨peak, o.heapTotal, some delta⟩

/-- The walk over a region inside the one at hand. -/
def wcmuSubregion (walk : McuWalk) (start stop : ℕ) (offset : ℤ) (breaks : List McuResult)
    (nest : ℕ) : Except CostFault (McuOutcome × List McuResult) := do
  let (result, subBreaks) ← walk start stop ⟨0, 0, 0⟩ [] (nest + 1)
  let lifted ← subBreaks.mapM (McuResult.lift offset)
  let outcome ← result.lift offset
  return (outcome, breaks ++ lifted)

/-- The slots of a called chunk. -/
def calleeSlots (valueSlotBytes stackBytes : ℕ) : Except CostFault ℤ :=
  if valueSlotBytes = 0 then .error .panicked else .ok (asI32 (stackBytes / valueSlotBytes))

/-- What the walk does at an instruction. -/
def wcmuOp (chunk : Chunk) (r : CallResolver) (valueSlotBytes : ℕ) (walk : McuWalk) (ip stop : ℕ)
    (s : McuState) (breaks : List McuResult) (nest : ℕ) (op : Op) :
    Except CostFault (McuOutcome × List McuResult) :=
  match op with
  | .break _ => do
    let s ← s.account op (opIterationHeap r op)
    return (s.exits, breaks ++ [s.leaving])
  | .trap _ | .return => do
    let s ← s.account op (opIterationHeap r op)
    return (s.exits, breaks)
  | .breakIf _ => do
    let s ← s.account op (opIterationHeap r op)
    walk (ip + 1) stop s (breaks ++ [s.leaving]) nest
  | .ifOp target => do
    let s ← s.account op (opIterationHeap r op)
    match elseBefore chunk.ops target with
    | some endif => do
      let (thenBranch, breaks) ← wcmuSubregion walk (ip + 1) (target - 1) s.offset breaks nest
      let (elseBranch, breaks) ← wcmuSubregion walk target endif s.offset breaks nest
      let s : McuState :=
        { s with
          peak := max (max s.peak thenBranch.peakAboveInitial) elseBranch.peakAboveInitial
          heap := Saturating.add u32Max s.heap (max thenBranch.heapTotal elseBranch.heapTotal) }
      match thenBranch.delta, elseBranch.delta with
      | some a, some b => walk (endif + 1) stop { s with offset := max a b } breaks nest
      | some a, none => walk (endif + 1) stop { s with offset := a } breaks nest
      | none, some b => walk (endif + 1) stop { s with offset := b } breaks nest
      | none, none => return (s.exits, breaks)
    | none => do
      let (thenBranch, breaks) ← wcmuSubregion walk (ip + 1) target s.offset breaks nest
      let s := s.into thenBranch
      walk (target + 1) stop { s with offset := thenBranch.delta.elim s.offset (max s.offset) }
        breaks nest
  | .loop target => do
    let s ← s.account op (opIterationHeap r op)
    let (body, loopBreaks) ← wcmuSubregion walk (ip + 1) (target - 1) s.offset [] nest
    let iterCount ← iterationCount chunk ip body.delta.isNone
    let bodyHeap := Saturating.mul u32Max body.heapTotal iterCount
    let breakPeak := (loopBreaks.map (·.peakAboveInitial)).foldl max 0
    let breakHeap := (loopBreaks.map (·.heapTotal)).foldl max 0
    let s : McuState :=
      { s with
        peak := max (max s.peak body.peakAboveInitial) breakPeak
        heap := Saturating.add u32Max s.heap (max bodyHeap breakHeap) }
    if loopBreaks.isEmpty && body.delta.isNone then return (s.exits, breaks)
    else walk target stop s breaks nest
  | .call callee n => do
    let (stackBytes, heapBytes) := r.resolveChunk callee
    let slots ← calleeSlots valueSlotBytes stackBytes
    let s ← s.call slots n heapBytes
    walk (ip + 1) stop s breaks nest
  | .callVerifiedNative native _ | .callExternalNative native _ => do
    let s ← s.account op (r.resolveNative native)
    walk (ip + 1) stop s breaks nest
  | .elseOp _ | .endIf | .endLoop _ => walk (ip + 1) stop s breaks nest
  | _ => do
    let s ← s.account op (opIterationHeap r op)
    walk (ip + 1) stop s breaks nest

/-- What a region needs from a position on. The fuel bounds the number of instructions on one path
of the recursion. -/
def wcmuRegionAt (chunk : Chunk) (r : CallResolver) (valueSlotBytes : ℕ) : ℕ → McuWalk
  | 0, _, _, _, _, _ => .error .panicked
  | fuel + 1, ip, stop, s, breaks, nest =>
    if maxRegionDepth < nest then .error .nestedTooDeep
    else if min stop chunk.ops.length ≤ ip then .ok (⟨s.peak, s.heap, some s.offset⟩, breaks)
    else
      match chunk.ops[ip]? with
      | none => .error .panicked
      | some op => wcmuOp chunk r valueSlotBytes (wcmuRegionAt chunk r valueSlotBytes fuel) ip stop s
          breaks nest op

/-- What a region needs. -/
def wcmuRegion (chunk : Chunk) (r : CallResolver) (valueSlotBytes start stop : ℕ) :
    Except CostFault McuOutcome := do
  let (outcome, _) ← wcmuRegionAt chunk r valueSlotBytes (chunk.ops.length + 1) start stop ⟨0, 0, 0⟩
    [] 0
  return outcome

/-! ## Chunks and modules -/

/-- The part of a chunk that the analysis walks over: what is between `Stream` and `Reset` of a
`loop fn`, and all of any other chunk. -/
def wcmuRange (chunk : Chunk) : Except CostFault (ℕ × ℕ) :=
  match chunk.blockType with
  | .stream => do
    let some streamPos := chunk.ops.findIdx? (· == .stream) | throw .noStream
    let some resetPos := chunk.ops.findIdx? (· == .reset) | throw .noReset
    return (streamPos + 1, resetPos)
  | .func | .reentrant => return (0, chunk.ops.length)

/-- What another analysis finds of the text of a chunk: the bytes it allocates, and whether the
chunk may return text. It is given which chunks analysed before may. -/
abbrev TextAnalysis := Chunk → (ℕ → Bool) → ℕ × Bool

/-- The bytes of stack and heap that a chunk needs, and whether it may return text. -/
def computeChunkWcmu (text : TextAnalysis) (chunk : Chunk) (r : CallResolver)
    (chunkReturnsText : ℕ → Bool) (valueSlotBytes : ℕ) : Except CostFault ((ℕ × ℕ) × Bool) := do
  let (start, stop) ← wcmuRange chunk
  structurally (checkForwardControlFlowTargets chunk)
  let body ← wcmuRegion chunk r valueSlotBytes start stop
  let stackSlots ← u32 (chunk.localCount + body.peakAboveInitial)
  let stackBytes ← u32 (stackSlots * valueSlotBytes)
  let (heapAlloc, returnsText) := text chunk chunkReturnsText
  return ((stackBytes, Saturating.add u32Max body.heapTotal heapAlloc), returnsText)

/-- What the analysis has found of the chunks so far. -/
structure WcmuTable where
  wcmu : ℕ → Option (ℕ × ℕ)
  returnsText : ℕ → Bool

/-- The shared slots of a module. -/
def Module.sharedLayout (m : Module) : List SharedSlotLayout := m.dataLayout.elim [] (·.sharedLayout)

/-- The analysis of one more chunk. -/
def wcmuChunkAt (text : TextAnalysis) (m : Module) (nativeWcmu : List ℕ) (valueSlotBytes : ℕ)
    (table : WcmuTable) (idx : ℕ) : Except CostFault WcmuTable :=
  match m.chunks[idx]? with
  | none => .error .panicked
  | some chunk => do
    let (wcmu, returnsText) ← computeChunkWcmu text chunk ⟨table.wcmu, nativeWcmu, m.sharedLayout⟩
      table.returnsText valueSlotBytes
    return ⟨Function.update table.wcmu idx (some wcmu),
      Function.update table.returnsText idx returnsText⟩

/-- The bytes of stack and heap that the chunks of a module need. -/
def moduleWcmu (text : TextAnalysis) (m : Module) (nativeWcmu : List ℕ) (valueSlotBytes : ℕ) :
    Except CostFault (List (ℕ × ℕ)) := do
  let order ← (topologicalCallOrder m).mapError fun e => .structural e.fault
  let table ← order.foldlM (wcmuChunkAt text m nativeWcmu valueSlotBytes)
    ⟨fun _ => none, fun _ => false⟩
  return (List.range m.chunks.length).map fun i => (table.wcmu i).getD (0, 0)

end Keleusma
