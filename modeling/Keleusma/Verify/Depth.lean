import Keleusma.Verify.Coverage

/-!
# Operand depth

A walk over a chunk tracks the depth of the operand stack and refuses an instruction that needs
more operands than there are. Branches join at the larger depth; a loop goes on at the largest
depth of its breaks. A chunk in which some path runs off the end is refused.
-/

namespace Keleusma

/-- Check that the operands of an instruction are there. -/
def requireOperands (op : Op) (ip : ℕ) (depth : Int) : Except Fault Unit :=
  if depth < (opDepthEffect op).1 then
    .error (.operandUnderflow op ip (opDepthEffect op).1.toNat depth.toNat)
  else .ok ()

/-- The walk over the instructions from `ip` up to `stop`. The result is `none` when no path
falls through; the second component collects the depths at the breaks. -/
def verifyDepthRegionAt (ops : List Op) :
    ℕ → ℕ → ℕ → Int → List Int → ℕ → Except Fault (Option Int × List Int)
  | 0, _, _, _, _, _ => .error .nestedTooDeep
  | fuel + 1, ip, stop, depth, breaks, nest =>
    if maxRegionDepth < nest then .error .nestedTooDeep
    else if min stop ops.length ≤ ip then .ok (some depth, breaks)
    else
      match ops[ip]? with
      | none => .ok (some depth, breaks)
      | some (.trap kind) => do
        requireOperands (.trap kind) ip depth
        return (none, breaks)
      | some .return => do
        requireOperands .return ip depth
        return (none, breaks)
      | some .reset => do
        requireOperands .reset ip depth
        return (none, breaks)
      | some (.break _) => return (none, breaks ++ [depth])
      | some (.breakIf target) => do
        requireOperands (.breakIf target) ip depth
        let depth := depth + (opDepthEffect (.breakIf target)).2
        verifyDepthRegionAt ops fuel (ip + 1) stop depth (breaks ++ [depth]) nest
      | some (.ifOp target) => do
        requireOperands (.ifOp target) ip depth
        let depth := depth + (opDepthEffect (.ifOp target)).2
        match elseBefore ops target with
        | some endif =>
          let (thenEnd, breaks) ←
            verifyDepthRegionAt ops fuel (ip + 1) (target - 1) depth breaks (nest + 1)
          let (elseEnd, breaks) ← verifyDepthRegionAt ops fuel target endif depth breaks (nest + 1)
          match thenEnd, elseEnd with
          | some a, some b => verifyDepthRegionAt ops fuel (endif + 1) stop (max a b) breaks nest
          | some a, none => verifyDepthRegionAt ops fuel (endif + 1) stop a breaks nest
          | none, some b => verifyDepthRegionAt ops fuel (endif + 1) stop b breaks nest
          | none, none => return (none, breaks)
        | none =>
          let (thenEnd, breaks) ←
            verifyDepthRegionAt ops fuel (ip + 1) target depth breaks (nest + 1)
          verifyDepthRegionAt ops fuel (target + 1) stop (thenEnd.elim depth (max depth ·)) breaks
            nest
      | some (.loop target) => do
        let (bodyEnd, loopBreaks) ←
          verifyDepthRegionAt ops fuel (ip + 1) (target - 1) depth [] (nest + 1)
        verifyDepthRegionAt ops fuel target stop ((loopBreaks.max?.or bodyEnd).getD depth) breaks
          nest
      | some op => do
        requireOperands op ip depth
        verifyDepthRegionAt ops fuel (ip + 1) stop (depth + (opDepthEffect op).2) breaks nest

/-- The depth pass keeps within its limit. -/
theorem verifyDepthRegionAt_nest {ops : List Op} {fuel ip stop nest : ℕ} {depth : Int}
    {breaks : List Int} {r : Option Int × List Int}
    (h : verifyDepthRegionAt ops fuel ip stop depth breaks nest = .ok r) :
    ¬maxRegionDepth < nest := by
  cases fuel with
  | zero => cases h
  | succ fuel =>
    rw [verifyDepthRegionAt] at h
    split at h
    · cases h
    next hn => exact hn

/-- The depth pass over a chunk. -/
def verifyStackDepth (chunk : Chunk) : Except Fault Unit := do
  let (terminal, _) ←
    verifyDepthRegionAt chunk.ops (chunk.ops.length + 1) 0 chunk.ops.length 0 [] 0
  match terminal with
  | none => return
  | some depth => throw (.runsOffEnd depth.toNat)

end Keleusma
