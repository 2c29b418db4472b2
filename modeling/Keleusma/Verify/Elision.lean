import Keleusma.Logic.Minima
import Keleusma.Verify.Accepted
import Keleusma.Verify.Heights
import Keleusma.Verify.Traps

/-!
# The certificate for eliding operand checks

A machine may leave out the check that a pop stays above the locals when every chunk of its
module is certified. The certificate gives to each position the least height of the operand
stack with which control can be there, over the actual edges of control flow, and asks at each
position for the operands of its instruction. Where `Reset` goes on after `Stream` it counts
one operand, which a resume is taken to supply.
-/

namespace Keleusma

/-! ## The certificate -/

/-- Why a chunk is not certified, beside the failures of the walk itself. -/
inductive ElisionFault
  | capacityExceeded
  | paramsExceedLocals
  | terminationRequired
  | operandsShort (ip : ℕ) (required available : Int)
  | resetWithoutStream

/-- A refused certificate. -/
structure ElisionError where
  chunkName : String
  fault : Minima.Fault ElisionFault

/-- The operands that must be there. `Return` pops one, for which the table has no entry. -/
def elisionRequires : Op → Int
  | .return => 1
  | op => (opDepthEffect op).1

/-- The edges from an instruction, with the height they carry. -/
def elisionEdges (ops : List Op) (op : Op) (ip : ℕ) (next : Int) :
    Except ElisionFault (List (ℕ × Int)) :=
  match op with
  | .return | .trap _ => .ok []
  | .reset =>
    match ops.findIdx? (· == .stream) with
    | some pos => .ok [(pos + 1, 1)]
    | none => .error .resetWithoutStream
  | .ifOp target | .breakIf target => .ok [(ip + 1, next), (target, next)]
  | .elseOp target | .endLoop target | .break target => .ok [(target, next)]
  | _ => .ok [(ip + 1, next)]

/-- One step of the walk. -/
def elisionTransfer (ops : List Op) (ip : ℕ) (available : Int) :
    Except ElisionFault (List (ℕ × Int)) :=
  match ops[ip]? with
  | none => .error .terminationRequired
  | some op =>
    if available < elisionRequires op then
      .error (.operandsShort ip (elisionRequires op) available)
    else elisionEdges ops op ip (available + (opDepthEffect op).2)

/-- The most that an instruction of the chunk adds to the stack. -/
def elisionGrowth (ops : List Op) : ℕ :=
  (ops.map fun op => (max (opDepthEffect op).2 0).toNat).foldr max 0

/-- The bound on the steps of the walk. -/
def elisionBudget (ops : List Op) : ℕ :=
  (ops.length + 1) * (ops.length * elisionGrowth ops + 1 + 1)

/-- The walk before its first step. -/
def elisionStart (ops : List Op) : Minima.Work where
  bounds := List.replicate (ops.length + 1) none
  queued := List.replicate (ops.length + 1) false
  work := []

/-- Certify a chunk. -/
def proveChunk (chunk : Chunk) : Except (Minima.Fault ElisionFault) Unit :=
  if trapOpcodeCap < chunk.ops.length then .error (.refused .capacityExceeded)
  else if chunk.localCount < chunk.paramCount then .error (.refused .paramsExceedLocals)
  else do
    let w ← (elisionStart chunk.ops).enqueue 0 0
    let _ ← w.run (elisionTransfer chunk.ops) (elisionBudget chunk.ops)
    return ()

/-- Certify a module. -/
def verifyPopElision (m : Module) : Except ElisionError Unit :=
  m.chunks.forM fun chunk => (proveChunk chunk).mapError fun fault => ⟨chunk.name, fault⟩

/-! ## The bounds of the walk fit a machine word -/

theorem opDepthEffect_snd_le (op : Op) : (opDepthEffect op).2 ≤ 5 := by
  cases op with
  | getIndex elem =>
    show (if elem.hasBoundsOutcome then ((2 : Int), (5 : Int)) else (2, -1)).2 ≤ 5
    split_ifs <;> decide
  | trap kind =>
    rw [opDepthEffect_trap]
    split_ifs <;> decide
  | call _ n => show (1 - n : Int) ≤ 5; omega
  | popN n => show (-n : Int) ≤ 5; omega
  | newComposite c => show (1 - c.count : Int) ≤ 5; omega
  | callVerifiedNative _ n | callExternalNative _ n =>
    show (nativeResultCount n - nativeArgCount n : Int) ≤ 5
    have hres : nativeResultCount n ≤ 2 := by
      unfold nativeResultCount
      split_ifs <;> decide
    omega
  | _ => exact of_decide_eq_true rfl

theorem elisionGrowth_le (ops : List Op) : elisionGrowth ops ≤ 5 := by
  unfold elisionGrowth
  induction ops with
  | nil => simp
  | cons op ops ih =>
    rw [List.map_cons, List.foldr_cons]
    have hop := opDepthEffect_snd_le op
    exact max_le (by omega) ih

/-- No step bound overflows a 32-bit word, so the checked arithmetic on it never fails. -/
theorem elisionBudget_lt {ops : List Op} (h : ops.length ≤ trapOpcodeCap) :
    elisionBudget ops < 2 ^ 32 := by
  have hgrowth : ops.length * elisionGrowth ops ≤ trapOpcodeCap * 5 :=
    Nat.mul_le_mul h (elisionGrowth_le ops)
  calc elisionBudget ops ≤ (trapOpcodeCap + 1) * (trapOpcodeCap * 5 + 1 + 1) :=
        Nat.mul_le_mul (by omega) (by omega)
    _ < 2 ^ 32 := by decide

/-! ## What is certified -/

/-- Control that starts at a position without operands finds the operands of every instruction
it comes to, up to the next `Reset`. -/
def Supplied (ops : List Op) (entry : ℕ) : Prop :=
  ∀ ip h, Relation.ReflTransGen (Flow ops heightEff) (entry, 0) (ip, h) →
    ∃ op, ops[ip]? = some op ∧ elisionRequires op ≤ h

/-- The walk has the edge that control takes, but for the one from `Reset`. -/
theorem elisionEdges_next {ops : List Op} {op : Op} {ip ip' : ℕ} {next : Int}
    {edges : List (ℕ × Int)} (h : elisionEdges ops op ip next = .ok edges)
    (hnext : ip' ∈ op.next ip) : (ip', next) ∈ edges := by
  cases op with
  | «return» => cases hnext
  | trap kind => cases hnext
  | reset => cases hnext
  | ifOp target | breakIf target =>
    cases h
    rcases List.mem_cons.1 hnext with rfl | hnext
    · exact List.mem_cons_self
    · rw [List.mem_singleton.1 hnext]
      exact List.mem_cons_of_mem _ (List.mem_singleton_self _)
  | _ =>
    cases h
    rw [List.mem_singleton.1 hnext]
    exact List.mem_singleton_self _

/-- Values that are closed under the walk bound every height from below. -/
theorem supplied_of_closed {ops : List Op} {bounds : List (Option Int)} {entry : ℕ}
    (hentry : Minima.AtMost bounds entry 0)
    (hclosed : ∀ ip d, Minima.At bounds ip d →
      Minima.Closed (elisionTransfer ops) bounds ip d) : Supplied ops entry := by
  have reached : ∀ s, Relation.ReflTransGen (Flow ops heightEff) (entry, 0) s →
      Minima.AtMost bounds s.1 s.2 := by
    intro s hs
    induction hs with
    | refl => exact hentry
    | @tail s s' _ hflow ih =>
      obtain ⟨d, hd, hle⟩ := ih
      obtain ⟨op, hop, hnext, hreq, hheight⟩ := hflow
      obtain ⟨edges, hedges, hall⟩ := hclosed s.1 d hd
      simp only [elisionTransfer, hop] at hedges
      split at hedges
      · cases hedges
      obtain ⟨d', hd', hle'⟩ := hall _ (elisionEdges_next hedges hnext)
      refine ⟨d', hd', ?_⟩
      rw [opDepthEffect_eq op] at hle'
      simp only at hle'
      omega
  intro ip h hreach
  obtain ⟨d, hd, hle⟩ := reached (ip, h) hreach
  obtain ⟨edges, hedges, -⟩ := hclosed ip d hd
  unfold elisionTransfer at hedges
  split at hedges
  · cases hedges
  · next op hop =>
    refine ⟨op, hop, ?_⟩
    split at hedges
    · cases hedges
    · omega

/-- A walk that succeeds from an entry without operands supplies what control comes to. -/
theorem supplied_of_walk {ops : List Op} {entry fuel : ℕ} {w w' : Minima.Work}
    (hw : ((elisionStart ops).enqueue entry 0 : Except (Minima.Fault ElisionFault) _) = .ok w)
    (hw' : w.run (elisionTransfer ops) fuel = .ok w') : Supplied ops entry := by
  have hempty : ∀ node d, ¬Minima.At (elisionStart ops).bounds node d := by
    intro node d hd
    rw [Minima.At, elisionStart, List.getElem?_replicate] at hd
    split at hd <;> simp at hd
  have hmarked : Minima.Marked (elisionStart ops) := by
    intro node hnode
    rw [elisionStart, List.getElem?_replicate] at hnode
    split at hnode <;> simp at hnode
  obtain ⟨hlow, hentry, hmarked'⟩ := Minima.Work.enqueue_ok hmarked hw
  have hinv : Minima.Inv (elisionTransfer ops) w := by
    refine ⟨hmarked', ?_⟩
    intro node d hd
    exact .inl ((hlow.changed node d hd).resolve_left (hempty node d))
  obtain ⟨hclosed, hbelow⟩ := Minima.Work.run_closed hinv hw'
  exact supplied_of_closed (hbelow entry 0 hentry) hclosed

/-- **A certified chunk supplies every instruction that control reaches from its entry.** -/
theorem proveChunk_supplied {chunk : Chunk} (h : proveChunk chunk = .ok ()) :
    Supplied chunk.ops 0 := by
  unfold proveChunk at h
  split at h
  · cases h
  split at h
  · cases h
  obtain ⟨w, hw, h⟩ := bind_eq_ok h
  obtain ⟨w', hw', -⟩ := bind_eq_ok h
  exact supplied_of_walk hw hw'

theorem verifyPopElision_supplied {m : Module} (h : verifyPopElision m = .ok ()) {chunk : Chunk}
    (hc : chunk ∈ m.chunks) : Supplied chunk.ops 0 :=
  proveChunk_supplied (mapError_eq_ok (forM_eq_ok h chunk hc))

end Keleusma
