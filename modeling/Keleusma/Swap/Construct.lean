import Keleusma.Swap.Replace

/-!
# A new machine

`newMachine` verifies a module and builds a machine in an arena of the host. Like a swap, the
construction ends with the move of the composites that the private slots are initialised with.
`resetAfterError` is the host's way on after a failed run: the stacks go, the data stays.
-/

namespace Keleusma

open KeleusmaWire (Byte)

variable {F K : Type}

/-- Reserve room for `n` elements of a vector, or fail. -/
def Arena.preSizedBottomVec (a : Arena) (n : ℕ) (e : ElementLayout) : Except SwapError Arena :=
  if n * e.size = 0 then .ok a
  else match a.allocBottom (n * e.size) e.align with
    | none => .error (.vm (.outOfArena "bottom region"))
    | some a => .ok a

/-- The initial values of `n` private slots. -/
def initialData (p : Platform F K) (inits : List ConstValue) (n : ℕ) : List (Value F) :=
  (List.range n).map fun i => match inits[i]? with
    | some c => Value.fromConst p.base.fo p.base.runtimeBitsLog2 c
    | none => .unit

/-- The machine as it is before the composites of its private slots have moved. -/
def freshHost (p : Platform F K) (m : ModuleFile) (shared priv : ℕ) (bytes : List Byte)
    (decoded : List (List Op)) (a : Arena) : Host F K where
  image := ⟨bytes, m⟩
  decodedOps := decoded
  sharedSlotCount := shared
  privateSlotCount := priv
  vm := {
    stack := [], frames := [], arena := a
    privateData := initialData p (m.dataLayout.elim [] (·.privateInit)) priv
    sharedBuf := none, ephemeralOpaques := [], reifiedHostError := none, nativeCalls := 0
    started := false, suspendedAtReset := false }
  constPool := buildConstPool p m.toModule
  reserved := moduleBottomReservations p m
  nativeClassificationsVerified := false
  verifyingKeys := []
  trapPolicy := .allow
  executionChecks := .checked
  proofState := .inactive
  popProof := false
  elidePops := false

/-- Build a machine whose composites have yet to move. -/
def constructFresh (p : Platform F K) (m : ModuleFile) (a : Arena) :
    Except SwapError (Host F K) := do
  let reserved := moduleBottomReservations p m
  checkRuntimeWidths p m.toModule
  let (shared, priv) ← countSlots (m.dataLayout.elim [] (·.slots)) 0 0
  checkPersistent p a m.toModule priv
  let bytes ← (p.toBytes m).mapError .load
  let decoded ← p.decodeAllOps bytes
  let a ← a.preSizedBottomVec reserved.operandSlots p.value
  let a ← a.preSizedBottomVec reserved.frameDepth p.callFrame
  let a ← a.preSizedBottomVec reserved.opaqueCapacity p.arc
  (p.resolveAux bytes).mapError .auxBody
  return freshHost p m shared priv bytes decoded a

/-- Build a machine without verifying its module. -/
def construct (p : Platform F K) (m : ModuleFile) (a : Arena) : Except SwapError (Host F K) := do
  let h ← constructFresh p m a
  match persistSeeded (p.env m.toModule) 0 h.privateSlotCount h.vm with
  | (.error e, _) => .error (.vm e)
  | (.ok (), vm) => .ok { h with vm }

/-- Verify a module and build a machine for it. A module that has to be signed is refused, and so
is one without an entry point. -/
def newMachine (p : Platform F K) (m : ModuleFile) (policy : TrapPolicy) (a : Arena) :
    Except SwapError (Host F K) := do
  if m.entryPoint.isNone then throw .noEntryPoint
  else if m.flags &&& Framing.flagRequiresSignature ≠ 0 then throw .signatureRequired
  else
    enforceTrapPolicy m.toModule policy
    (verify m.toModule).mapError .refused
    (p.resourceBounds m.toModule a.capacity).mapError fun e => .resourceBounds e.1 e.2
    let h ← construct p m a
    return { h with trapPolicy := policy }

/-- Clear what a failed run has left behind. -/
def resetAfterError (p : Platform F K) (h : Host F K) : Host F K :=
  let (isReset, h) := fullReset p { h with
    elidePops := false
    proofState := if h.executionChecks = .proven then .poisoned else h.proofState
    vm := { h.vm with sharedBuf := none } }
  { h with
    vm := { h.vm with started := false }
    proofState := if isReset && h.popProof then .ready else h.proofState }

end Keleusma
