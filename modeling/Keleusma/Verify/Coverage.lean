import Keleusma.Verify.Structure

/-!
# Yield coverage

A walk over a region of a chunk computes whether every path through it has yielded. A path that
leaves the enclosing loop through `Break` reports its state among the loop's break states. The
chunks that yield on every path are found by iterating the walk over the module until no chunk
is added; the walk counts a call of such a chunk as a yield.

The fuel of a walk bounds the instructions it visits along one path of its recursion; the
length of the chunk is enough, since every target lies ahead.
-/

namespace Keleusma

/-- The operand of the `Else` before an `If` target, when the `If` has an `Else`. -/
def elseBefore (ops : List Op) (target : ℕ) : Option ℕ :=
  if 0 < target ∧ target ≤ ops.length then
    match ops[target - 1]? with
    | some (.elseOp endif) => some endif
    | _ => none
  else none

/-- A walk over a region: the position, the end, whether it has yielded, the states at the breaks so
far and the depth of nesting. The result is `none` when no path falls through; the second component
collects the states at the breaks. -/
abbrev CoverageWalk := ℕ → ℕ → Bool → List Bool → ℕ → Option Bool × List Bool

/-- What the walk does at an instruction. -/
def coverageOp (ops : List Op) (always : List ℕ) (walk : CoverageWalk) (ip stop : ℕ)
    (hasYielded : Bool) (breakStates : List Bool) (depth : ℕ) : Op → Option Bool × List Bool
  | .yield => walk (ip + 1) stop true breakStates depth
  | .break _ => (none, breakStates ++ [hasYielded])
  | .breakIf _ => walk (ip + 1) stop hasYielded (breakStates ++ [hasYielded]) depth
  | .ifOp target =>
    match elseBefore ops target with
    | some endif =>
      let (thenResult, breakStates) :=
        walk (ip + 1) (target - 1) hasYielded breakStates (depth + 1)
      let (elseResult, breakStates) := walk target endif hasYielded breakStates (depth + 1)
      match thenResult, elseResult with
      | some a, some b => walk (endif + 1) stop (a && b) breakStates depth
      | some a, none => walk (endif + 1) stop a breakStates depth
      | none, some b => walk (endif + 1) stop b breakStates depth
      | none, none => (none, breakStates)
    | none =>
      let (thenResult, breakStates) := walk (ip + 1) target hasYielded breakStates (depth + 1)
      walk (target + 1) stop (thenResult.elim hasYielded (· && hasYielded)) breakStates depth
  | .loop target =>
    let (_, loopBreaks) := walk (ip + 1) (target - 1) hasYielded [] (depth + 1)
    if loopBreaks.isEmpty then (none, breakStates)
    else walk target stop (loopBreaks.all id) breakStates depth
  | .call callee _ =>
    walk (ip + 1) stop (hasYielded || decide (callee ∈ always)) breakStates depth
  | _ => walk (ip + 1) stop hasYielded breakStates depth

/-- The walk over the instructions from `ip` up to `stop`. -/
def analyzeYieldCoverageAt (ops : List Op) (always : List ℕ) : ℕ → CoverageWalk
  | 0, _, _, _, breakStates, _ => (some false, breakStates)
  | fuel + 1, ip, stop, hasYielded, breakStates, depth =>
    if maxRegionDepth < depth then (some false, breakStates)
    else if min stop ops.length ≤ ip then (some hasYielded, breakStates)
    else
      match ops[ip]? with
      | none => (some hasYielded, breakStates)
      | some op => coverageOp ops always (analyzeYieldCoverageAt ops always fuel) ip stop
          hasYielded breakStates depth op

/-- The walk over nothing. -/
theorem analyzeYieldCoverageAt_nil {ops : List Op} {always : List ℕ} {fuel ip depth : ℕ}
    {hasYielded : Bool} {breakStates : List Bool} (hn : ¬maxRegionDepth < depth) :
    analyzeYieldCoverageAt ops always (fuel + 1) ip ip hasYielded breakStates depth =
      (some hasYielded, breakStates) := by
  rw [analyzeYieldCoverageAt, if_neg hn, if_pos (Nat.min_le_left _ _)]

/-- The walk over a region from its entry. -/
def analyzeYieldCoverage (ops : List Op) (always : List ℕ) (start stop : ℕ) (initial : Bool) :
    Option Bool :=
  (analyzeYieldCoverageAt ops always (ops.length + 1) start stop initial [] 0).1

/-- Whether the walk over a whole chunk ends having yielded. -/
def coversWholeChunk (always : List ℕ) (chunk : Chunk) : Bool :=
  analyzeYieldCoverage chunk.ops always 0 chunk.ops.length false == some true

/-- One round: visit the chunks in order and add those the walk accepts. -/
def alwaysYieldingRound : ℕ → List Chunk → List ℕ → List ℕ
  | _, [], always => always
  | i, chunk :: rest, always =>
    alwaysYieldingRound (i + 1) rest
      (if i ∈ always then always
       else if coversWholeChunk always chunk then i :: always
       else always)

/-- Rounds until nothing is added. A round that adds nothing is the last; the number of chunks
bounds the others. -/
def alwaysYieldingFix (chunks : List Chunk) : ℕ → List ℕ → List ℕ
  | 0, always => always
  | fuel + 1, always =>
    let next := alwaysYieldingRound 0 chunks always
    if next.length = always.length then always else alwaysYieldingFix chunks fuel next

/-- The chunks that yield on every path. -/
def computeAlwaysYielding (m : Module) : List ℕ :=
  alwaysYieldingFix m.chunks (m.chunks.length + 1) []

/-- Pass 3: every path from `Stream` to `Reset` yields. -/
def checkProductive (always : List ℕ) (chunk : Chunk) : Except Fault Unit :=
  if chunk.blockType = .stream then
    match chunk.ops.findIdx? (· == .stream), chunk.ops.findIdx? (· == .reset) with
    | some s, some r =>
      if analyzeYieldCoverage chunk.ops always (s + 1) r false = some false then
        .error .notProductive
      else .ok ()
    | _, _ => .ok ()
  else .ok ()

/-- The structural verification of a chunk. -/
def verifyChunk (m : Module) (always : List ℕ) (chunk : Chunk) : Except Fault Unit := do
  checkNesting m chunk
  checkBlockType always chunk
  checkProductive always chunk

end Keleusma
