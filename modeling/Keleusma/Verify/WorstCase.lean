import Keleusma.Verify.Coverage
import Keleusma.Verify.LoopBounds

/-!
# Worst-case execution time

The verifier prices every instruction and finds what the most expensive way through a region costs.
Of the two ways through a branch it takes the dearer one, and a loop whose body control comes to
the end of costs as much as all its passes and one more test. Costs stop at the greatest `u32`.
-/

namespace Keleusma

open Saturating (u32Max)

/-- The price of each opcode. -/
structure CostModel where
  cycles : Op → ℕ

/-- The reasons of the cost analyses. -/
inductive CostFault
  | nestedTooDeep
  | unboundedText (ip : ℕ)
  | unboundedLoop (ip : ℕ)
  | requiresStream
  | requiresNonStream
  | noStream
  | noReset
  | structural (fault : Fault)
  | unknownCallee (ip callee : ℕ)
  | chunkOutOfRange (chunkIdx chunkCount : ℕ)
  | callCycle
  | recursiveCall
  | panicked

/-- What a region costs, and whether any path comes to its end. -/
structure WcetOutcome where
  cost : ℕ
  fallsThrough : Bool
  deriving DecidableEq, Repr

/-- A region that control leaves without coming to its end. -/
def WcetOutcome.exits (cost : ℕ) : WcetOutcome := ⟨cost, false⟩

/-- What the instruction at a position costs: its price, and what the table adds. An entry at the
greatest value marks an operation whose cost has no bound. -/
def opWcetCycles (chunk : Chunk) (cm : CostModel) (extra : List ℕ) (ip : ℕ) :
    Except CostFault ℕ :=
  if extra.getD ip 0 = u32Max then .error (.unboundedText ip)
  else
    match chunk.ops[ip]? with
    | some op => .ok (Saturating.add u32Max (cm.cycles op) (extra.getD ip 0))
    | none => .error .panicked

/-- Whether every path through a loop body without inner loops yields. -/
def loopBodyAllPathsYieldNoInnerLoop (ops : List Op) (start stop : ℕ) : Bool :=
  let start := min start ops.length
  let stop := max start (min stop ops.length)
  !((ops.drop start).take (stop - start)).any (fun op => match op with | .loop _ => true | _ => false) &&
    decide (analyzeYieldCoverage ops [] start stop false = some true)

/-- The number of passes a loop is charged for. -/
def iterationCount (chunk : Chunk) (ip : ℕ) (singlePass : Bool) : Except CostFault ℕ :=
  if singlePass then .ok 1
  else
    match extractLoopIterationBound chunk ip with
    | some n => .ok n
    | none => .error (.unboundedLoop ip)

/-- Whether an `EndLoop` stands at a position. -/
def isEndLoop (ops : List Op) (ip : ℕ) : Bool :=
  match ops[ip]? with
  | some (.endLoop _) => true
  | _ => false

/-- The cost of a delimiter that a path goes through, where there is one. -/
def delimiterCost (chunk : Chunk) (cm : CostModel) (extra : List ℕ) (ip : ℕ) (present : Bool) :
    Except CostFault ℕ :=
  if present then opWcetCycles chunk cm extra ip else .ok 0

/-- A walk over a region: the position, the end, the cost so far, the costs at the breaks so far
and the depth of nesting. -/
abbrev WcetWalk := ℕ → ℕ → ℕ → List ℕ → ℕ → Except CostFault (WcetOutcome × List ℕ)

/-- What the walk does at an instruction, whose cost has been added. -/
def wcetOp (chunk : Chunk) (cm : CostModel) (clamp : Bool) (extra : List ℕ) (walk : WcetWalk)
    (ip stop cost : ℕ) (breakCosts : List ℕ) (nest : ℕ) :
    Op → Except CostFault (WcetOutcome × List ℕ)
  | .break _ => .ok (.exits cost, breakCosts ++ [cost])
  | .trap _ | .return => .ok (.exits cost, breakCosts)
  | .breakIf _ => walk (ip + 1) stop cost (breakCosts ++ [cost]) nest
  | .ifOp target =>
    match elseBefore chunk.ops target with
    | some endif => do
      let (thenCost, breakCosts) ← walk (ip + 1) (target - 1) 0 breakCosts (nest + 1)
      let (elseCost, breakCosts) ← walk target endif 0 breakCosts (nest + 1)
      let elseOp ← opWcetCycles chunk cm extra (target - 1)
      let endifOp ← delimiterCost chunk cm extra endif (endif < chunk.ops.length)
      let cost := Saturating.add u32Max (Saturating.add u32Max cost
        (max (Saturating.add u32Max thenCost.cost elseOp) elseCost.cost)) endifOp
      if !thenCost.fallsThrough && !elseCost.fallsThrough then return (.exits cost, breakCosts)
      else walk (endif + 1) stop cost breakCosts nest
    | none => do
      let (thenCost, breakCosts) ← walk (ip + 1) target 0 breakCosts (nest + 1)
      let endifOp ← delimiterCost chunk cm extra target (target < chunk.ops.length)
      walk (target + 1) stop
        (Saturating.add u32Max (Saturating.add u32Max cost thenCost.cost) endifOp) breakCosts nest
  | .loop target => do
    let endloopIp := target - 1
    let (bodyCost, loopBreakCosts) ← walk (ip + 1) endloopIp 0 [] (nest + 1)
    if loopBreakCosts.isEmpty && !bodyCost.fallsThrough then
      return (.exits (Saturating.add u32Max cost bodyCost.cost), breakCosts)
    else do
      let singlePass := !bodyCost.fallsThrough ||
        (clamp && loopBodyAllPathsYieldNoInnerLoop chunk.ops (ip + 1) endloopIp)
      let iterCount ← iterationCount chunk ip singlePass
      let endloop ← delimiterCost chunk cm extra endloopIp
        (bodyCost.fallsThrough && isEndLoop chunk.ops endloopIp)
      let bodyTotal := Saturating.mul u32Max (Saturating.add u32Max bodyCost.cost endloop) iterCount
      let maxBreak := loopBreakCosts.foldl max 0
      walk target stop
        (Saturating.add u32Max cost
          (if singlePass then max maxBreak bodyTotal
           else Saturating.add u32Max bodyTotal maxBreak)) breakCosts nest
  | _ => walk (ip + 1) stop cost breakCosts nest

/-- What a region costs from a position on, with the cost of what lies before. The costs at the
breaks of the loop around are collected on the way. The fuel bounds the number of instructions on
one path of the recursion. -/
def wcetRegionAt (chunk : Chunk) (cm : CostModel) (clamp : Bool) (extra : List ℕ) : ℕ → WcetWalk
  | 0, _, _, _, _, _ => .error .panicked
  | fuel + 1, ip, stop, cost, breakCosts, nest =>
    if maxRegionDepth < nest then .error .nestedTooDeep
    else if min stop chunk.ops.length ≤ ip then .ok (⟨cost, true⟩, breakCosts)
    else
      match chunk.ops[ip]? with
      | none => .error .panicked
      | some op => do
        let here ← opWcetCycles chunk cm extra ip
        wcetOp chunk cm clamp extra (wcetRegionAt chunk cm clamp extra fuel) ip stop
          (Saturating.add u32Max cost here) breakCosts nest op

/-- What a region costs. -/
def wcetRegion (chunk : Chunk) (cm : CostModel) (clamp : Bool) (extra : List ℕ) (start stop : ℕ) :
    Except CostFault ℕ := do
  let (outcome, _) ← wcetRegionAt chunk cm clamp extra (chunk.ops.length + 1) start stop 0 [] 0
  return outcome.cost

/-! ## Chunks -/

/-- What the host attests of a native function; external ones with their number of calls. -/
structure NativeIterationBound where
  perCallWcmuBytes : ℕ
  perCallWcetCycles : ℕ
  maxInvocations : Option ℕ
  deriving DecidableEq, Repr

/-- The table of a chunk: the cost of text by its length, which another analysis finds, and the
cost of verified natives. -/
def chunkWcetExtra (text : Chunk → List ℕ) (chunk : Chunk) (nativeBounds : List NativeIterationBound) :
    List ℕ :=
  if nativeBounds.isEmpty then text chunk
  else (text chunk).mapIdx fun ip extra =>
    match chunk.ops[ip]? with
    | some (.callVerifiedNative idx _) =>
      nativeBounds[idx]?.elim extra fun b => Saturating.add u32Max extra b.perCallWcetCycles
    | _ => extra

/-- Charge an external native at the first of its calls. -/
def chargeExternal (nativeBounds : List NativeIterationBound) (s : List ℕ × ℕ) (op : Op) :
    List ℕ × ℕ :=
  match op with
  | .callExternalNative idx _ =>
    if idx ∈ s.1 then s
    else (idx :: s.1,
      (nativeBounds[idx]?.bind fun b => b.maxInvocations.map fun n =>
        Saturating.add u32Max s.2 (Saturating.mul u32Max b.perCallWcetCycles n)).getD s.2)
  | _ => s

/-- What the external natives of a chunk cost, each once. -/
def externalNativeWcet (chunk : Chunk) (nativeBounds : List NativeIterationBound) : ℕ :=
  (chunk.ops.foldl (chargeExternal nativeBounds) ([], 0)).2

/-- A structural fault in a cost analysis. -/
def structurally {α : Type} (r : Except Fault α) : Except CostFault α := r.mapError .structural

theorem findIdx?_getElem? {ops : List Op} {op : Op} {s : ℕ} (h : ops.findIdx? (· == op) = some s) :
    ops[s]? = some op := by
  rw [List.findIdx?_eq_some_iff_getElem] at h
  obtain ⟨hlt, hp, -⟩ := h
  rw [List.getElem?_eq_getElem hlt, eq_of_beq hp]

/-- What one iteration of a `loop fn` costs, from `Stream` to `Reset`. The costs of these two are
added in 32 bits without a check. -/
def wcetStreamIteration (text : Chunk → List ℕ) (chunk : Chunk) (cm : CostModel)
    (nativeBounds : List NativeIterationBound) : Except CostFault ℕ := do
  if chunk.blockType ≠ .stream then throw .requiresStream
  structurally (checkForwardControlFlowTargets chunk)
  let some streamPos := chunk.ops.findIdx? (· == .stream) | throw .noStream
  let some resetPos := chunk.ops.findIdx? (· == .reset) | throw .noReset
  let region ← wcetRegion chunk cm false (chunkWcetExtra text chunk nativeBounds) (streamPos + 1)
    resetPos
  -- a release build wraps around here, a debug build panics
  let overhead := (cm.cycles .stream + cm.cycles .reset) % 2 ^ 32
  return Saturating.add u32Max (Saturating.add u32Max overhead region)
    (externalNativeWcet chunk nativeBounds)

/-- The positions of the yields of a chunk, unless one of them lies in a block. -/
def topLevelYields : ℕ → ℤ → List Op → Option (List ℕ)
  | _, _, [] => some []
  | ip, depth, .ifOp _ :: rest | ip, depth, .loop _ :: rest => topLevelYields (ip + 1) (depth + 1) rest
  | ip, depth, .endIf :: rest | ip, depth, .endLoop _ :: rest =>
    topLevelYields (ip + 1) (depth - 1) rest
  | ip, depth, .yield :: rest =>
    if depth ≠ 0 then none else (topLevelYields (ip + 1) depth rest).map (ip :: ·)
  | ip, depth, _ :: rest => topLevelYields (ip + 1) depth rest

/-- The greatest cost of the segments that end behind the given yields, and of what follows. -/
def maxSegment (chunk : Chunk) (cm : CostModel) (extra : List ℕ) :
    ℕ → ℕ → List ℕ → Except CostFault ℕ
  | maxCost, start, [] => return max maxCost (← wcetRegion chunk cm false extra start chunk.ops.length)
  | maxCost, start, y :: yields => do
    let cost ← wcetRegion chunk cm false extra start (y + 1)
    maxSegment chunk cm extra (max maxCost cost) (y + 1) yields

/-- What one resumption of a `yield fn` costs when its yields lie in no block. -/
def reentrantSegmentedWcet (chunk : Chunk) (cm : CostModel) (extra : List ℕ) :
    Except CostFault (Option ℕ) :=
  match topLevelYields 0 0 chunk.ops with
  | none | some [] => .ok none
  | some yields => some <$> maxSegment chunk cm extra 0 0 yields

/-- What a call of a chunk costs, or a resumption of a `yield fn`. -/
def wcetWholeChunk (text : Chunk → List ℕ) (chunk : Chunk) (cm : CostModel)
    (nativeBounds : List NativeIterationBound) : Except CostFault ℕ := do
  if chunk.blockType = .stream then throw .requiresNonStream
  structurally (checkForwardControlFlowTargets chunk)
  let external := externalNativeWcet chunk nativeBounds
  let extra := chunkWcetExtra text chunk nativeBounds
  if chunk.blockType = .reentrant then
    if let some segmented ← reentrantSegmentedWcet chunk cm extra then
      return Saturating.add u32Max segmented external
  let cost ← wcetRegion chunk cm (chunk.blockType = .reentrant) extra 0 chunk.ops.length
  return Saturating.add u32Max cost external

/-- What an activation of a chunk costs. -/
def chunkWcet (text : Chunk → List ℕ) (bounds : List NativeIterationBound) (cm : CostModel)
    (chunk : Chunk) : Except CostFault ℕ :=
  match chunk.blockType with
  | .stream => wcetStreamIteration text chunk cm bounds
  | _ => wcetWholeChunk text chunk cm bounds

end Keleusma
