import Keleusma.Swap.Host

/-!
# Hot swaps

`replaceModule`, `replaceModuleUnchecked` and `replaceModuleFromBytes` replace the module of a
machine between runs. A swap checks the new module and builds its image first (`prepare`), which
touches nothing. From there on it works on the machine: it drops the old private slots and installs
the new image (`install`), resets the arena, rebuilds the constant pool, and moves the composites
the private slots were seeded with into the persistent pool (`persistSeeded`).

A swap yields its result and the machine it leaves behind, since it leaves one behind on an error
too. What a failed packing has allocated for itself in the arena is not recorded.
-/

namespace Keleusma

open KeleusmaWire (Byte)

variable {F K : Type}

/-- Pair a result with the machine. -/
abbrev Swapped (F K : Type) := Except SwapError Unit × Host F K

/-! ## Checks before the swap -/

/-- The new module must satisfy the host's policy. -/
def enforceTrapPolicy (m : Module) : TrapPolicy → Except SwapError Unit
  | .allow => .ok ()
  | .requireTrapFree =>
    match classifyTraps m with
    | .ok .trapFree => .ok ()
    | .ok verdict => .error (.trapPolicy verdict)
    | .error e => .error (.trapPolicyUnavailable e)

/-- The float widths with rounding of their own; zero stands for no floats. -/
def floatWidthNarrowingIsImplemented (floatBitsLog2 : ℕ) : Bool :=
  floatBitsLog2 == 0 || floatBitsLog2 == 5 || floatBitsLog2 == 6

/-- The declared widths must fit the runtime's. -/
def checkRuntimeWidths (p : Platform F K) (m : Module) : Except SwapError Unit :=
  if p.base.runtimeBitsLog2 < m.wordBitsLog2 then
    .error (.wordTooWide m.wordBitsLog2 p.base.runtimeBitsLog2)
  else if p.addressBitsLog2 < m.addrBitsLog2 then
    .error (.addressTooWide m.addrBitsLog2 p.addressBitsLog2)
  else if !floatWidthNarrowingIsImplemented m.floatBitsLog2 then
    .error (.floatUnimplemented m.floatBitsLog2)
  else if p.floatBitsLog2 < m.floatBitsLog2 then
    .error (.floatTooWide m.floatBitsLog2 p.floatBitsLog2)
  else .ok ()

/-- The first data address that no instruction can name. -/
def maxDataAddr : ℕ := 2 ^ 24

/-- Count the shared and the private slots. -/
def countSlots : List DataSlot → ℕ → ℕ → Except SwapError (ℕ × ℕ)
  | [], shared, priv => .ok (shared, priv)
  | slot :: slots, shared, priv =>
    match slot.visibility with
    | .sharedSlot =>
      if maxDataAddr < shared + 1 then .error (.slotCountExceeded .sharedSlot)
      else countSlots slots (shared + 1) priv
    | .privateSlot =>
      if maxDataAddr < priv + 1 then .error (.slotCountExceeded .privateSlot)
      else countSlots slots shared (priv + 1)

/-- The least number of stack slots that are reserved. -/
def minStackReserveSlots : ℕ := 4

/-- The least number of frames that are reserved. -/
def minFramesReserve : ℕ := 1

/-- The working set to reserve for a module. -/
def moduleBottomReservations (p : Platform F K) (m : ModuleFile) : Reservations :=
  let (slots, frames) := match p.runtimeFootprint m.toModule with
    | some (slots, frames) => (max slots minStackReserveSlots, max frames minFramesReserve)
    | none => (minStackReserveSlots, minFramesReserve)
  ⟨slots, frames, m.auxArenaBytes / p.arc.size⟩

/-- The bytes of a working set. -/
def workingSetBytes (p : Platform F K) (r : Reservations) : ℕ :=
  r.operandSlots * p.value.size + r.frameDepth * p.callFrame.size + r.opaqueCapacity * p.arc.size

/-- Prove that no pop of the module underflows. -/
def provePopElision (p : Platform F K) (m : Module) (capacity : ℕ) (policy : TrapPolicy) :
    Except SwapError Unit :=
  match policy with
  | .allow => .error .provenNeedsTrapFree
  | .requireTrapFree => do
    enforceTrapPolicy m policy
    (verifyPopElision m).mapError .operandPops
    (p.resourceBounds m capacity).mapError fun e => .operandResources e.1 e.2

/-- The proof of a new image, when the host asks for one. -/
def proveImage (p : Platform F K) (bytes : List Byte) (decoded : List (List Op)) (h : Host F K) :
    Except SwapError Bool :=
  match h.executionChecks with
  | .checked => .ok false
  | .proven => do
    let file ← (p.fromBytes bytes).mapError .load
    if file.chunks.map (·.ops) ≠ decoded then .error .imageDiffers
    else do
      provePopElision p file.toModule h.vm.arena.capacity h.trapPolicy
      return true

/-- What the checks leave to be installed. -/
structure Prepared where
  sharedSlots : ℕ
  privateSlots : ℕ
  reserved : Reservations
  bytes : List Byte
  decodedOps : List (List Op)
  proof : Bool

/-- The values of the private slots must be as many as the module declares. -/
def checkSeeds (declared supplied : ℕ) : Except SwapError Unit :=
  if supplied ≠ declared then .error (.privateSizeMismatch declared supplied) else .ok ()

/-- The persistent region must hold the slots and the bodies of the composites. -/
def checkPersistent (p : Platform F K) (a : Arena) (m : Module) (privateSlots : ℕ) :
    Except SwapError Unit :=
  let storage := privateSlots * p.value.size
  let required := storage + m.persistentCompositeBytes
  if a.persistentCapacity < required then
    .error
      (.persistentCapacityTooSmall a.persistentCapacity required storage m.persistentCompositeBytes)
  else .ok ()

/-- The working set must fit the bump regions. -/
def checkWorkingSet (p : Platform F K) (a : Arena) (r : Reservations) : Except SwapError Unit :=
  if a.dualHeadedCapacity < workingSetBytes p r then
    .error (.workingSet (workingSetBytes p r) r a.dualHeadedCapacity)
  else .ok ()

/-- Check a new module and build its image. -/
def prepare (p : Platform F K) (m : ModuleFile) (seeds : List (Value F)) (h : Host F K) :
    Except SwapError Prepared := do
  enforceTrapPolicy m.toModule h.trapPolicy
  checkRuntimeWidths p m.toModule
  (verify m.toModule).mapError .refused
  (p.resourceBounds m.toModule h.vm.arena.capacity).mapError fun e => .resourceBounds e.1 e.2
  let (shared, priv) ← countSlots (m.dataLayout.elim [] (·.slots)) 0 0
  checkSeeds priv seeds.length
  checkPersistent p h.vm.arena m.toModule priv
  let reserved := moduleBottomReservations p m
  checkWorkingSet p h.vm.arena reserved
  let bytes ← (p.toBytes m).mapError .load
  let decoded ← p.decodeAllOps bytes
  let proof ← proveImage p bytes decoded h
  (p.resolveAux bytes).mapError .auxBody
  return ⟨shared, priv, reserved, bytes, decoded, proof⟩

/-! ## The swap itself -/

/-- A seed of `Unit` takes the initializer of its slot, where there is one. -/
def seedOrInit (p : Platform F K) : Value F → ConstValue → Value F
  | .unit, c => Value.fromConst p.base.fo p.base.runtimeBitsLog2 c
  | seeded, _ => seeded

/-- The first values of the private slots. -/
def privateInit (p : Platform F K) : List (Value F) → List ConstValue → List (Value F)
  | [], _ => []
  | seeds, [] => seeds
  | seeded :: seeds, c :: inits => seedOrInit p seeded c :: privateInit p seeds inits

/-- Drop the old private slots, install the new image, write the new slots and clear the persistent
pool behind them. -/
def install (p : Platform F K) (m : ModuleFile) (seeds : List (Value F)) (new : Prepared)
    (h : Host F K) : Host F K :=
  let storage := new.privateSlots * p.value.size
  let a := h.vm.arena
  { h with
    image := ⟨new.bytes, m⟩
    decodedOps := new.decodedOps
    sharedSlotCount := new.sharedSlots
    privateSlotCount := new.privateSlots
    vm := { h.vm with
      sharedBuf := none
      privateData := privateInit p seeds (m.dataLayout.elim [] (·.privateInit))
      arena := a.write (a.base + storage) (List.replicate (a.persistentCapacity - storage) 0) }
    reserved := new.reserved
    nativeClassificationsVerified := false
    proofState := if h.executionChecks = .proven then .poisoned else h.proofState
    popProof := false
    elidePops := false }

/-- Drop the stacks and the registry, reset the arena and reserve the working set again. Says
whether the arena could be reset. -/
def fullReset (p : Platform F K) (h : Host F K) : Bool × Host F K :=
  let vm := { h.vm with ephemeralOpaques := [], stack := [], frames := [] }
  match vm.arena.resetUnchecked with
  | none => (false, { h with vm })
  | some a =>
    let arena := ((a.reserve h.reserved.operandSlots p.value).reserve
      h.reserved.frameDepth p.callFrame).reserve h.reserved.opaqueCapacity p.arc
    (true, { h with vm := { vm with arena } })

/-- The pooled body of a constant: a composite with a flat form that is not empty. -/
def poolConstTemplate (p : Platform F K) (m : Module) (c : ConstValue) :
    Option (CompositeKind × List UInt8) :=
  match c.compositeKind?, constFlatBytes p.base.fo m.wordBytes m.floatBytes c with
  | some kind, some bytes => if bytes.isEmpty then none else some (kind, bytes)
  | _, _ => none

/-- The constants of the chunks, built once for all runs. -/
def buildConstPool (p : Platform F K) (m : Module) : ConstPool :=
  m.chunks.map fun chunk => chunk.constants.map (poolConstTemplate p m)

/-- Move the composite a private slot was seeded with into the persistent pool, as `SetData`
stores one. -/
def persistSeededSlot (env : Env F) (i : ℕ) (s : Vm F) : Except VmError Unit × Vm F :=
  let slot := env.sharedSlotCount + i
  match env.privateCompositePoolOffset slot with
  | none => (.ok (), s)
  | some _ =>
    match s.privateData.getD i .unit with
    | .unit => (.ok (), s)
    | seeded =>
      -- the slot holds `Unit` while its value is on the move
      let taken := { s with privateData := s.privateData.set i .unit }
      match intoArenaCanonical env.fo env.widths seeded s.arena with
      | none => (.error (.outOfArena "seeded private composite"), taken)
      | some (flat, arena) =>
        match writeDataSlot env slot flat { taken with arena } with
        | .error e => (.error e, { taken with arena })
        | .ok ((), s) => (.ok (), s)

/-- Move the composites of `n` slots, from the given one on. -/
def persistSeeded (env : Env F) : ℕ → ℕ → Vm F → Except VmError Unit × Vm F
  | _, 0, s => (.ok (), s)
  | i, n + 1, s =>
    match persistSeededSlot env i s with
    | (.ok (), s) => persistSeeded env (i + 1) n s
    | (.error e, s) => (.error e, s)

/-- What a swap does once its checks have passed. -/
def commit (p : Platform F K) (m : ModuleFile) (seeds : List (Value F)) (new : Prepared)
    (h : Host F K) : Swapped F K :=
  let (isReset, h) := fullReset p (install p m seeds new h)
  if h.executionChecks = .proven ∧ isReset = false then (.error .resetUnproven, h)
  else
    let h := { h with constPool := buildConstPool p m.toModule }
    match persistSeeded (p.env m.toModule) 0 new.privateSlots h.vm with
    | (.error e, vm) => (.error (.vm e), { h with vm })
    | (.ok (), vm) =>
      (.ok (), { h with
        vm := { vm with started := false }
        popProof := new.proof
        proofState := if new.proof then .ready else h.proofState })

/-- Replace the module. -/
def replaceModuleInner (p : Platform F K) (m : ModuleFile) (seeds : List (Value F))
    (h : Host F K) : Swapped F K :=
  match prepare p m seeds h with
  | .error e => (.error e, h)
  | .ok new => commit p m seeds new h

/-! ## The calls of the host -/

/-- A host with keys swaps in signed bytes only. -/
def refuseUnsignedSwapUnderTrust (h : Host F K) : Except SwapError Unit :=
  if h.verifyingKeys.isEmpty then .ok () else .error (.load .invalidSignature)

/-- Replace the module by one with the same data layout. -/
def replaceModuleSchemaChecked (p : Platform F K) (m : ModuleFile) (seeds : List (Value F))
    (h : Host F K) : Swapped F K :=
  if h.image.file.schemaHash ≠ m.schemaHash then
    (.error (.schemaMismatch h.image.file.schemaHash m.schemaHash), h)
  else replaceModuleInner p m seeds h

/-- Swap a module in that has the data layout of the old one. -/
def replaceModule (p : Platform F K) (m : ModuleFile) (seeds : List (Value F)) (h : Host F K) :
    Swapped F K :=
  match refuseUnsignedSwapUnderTrust h with
  | .error e => (.error e, h)
  | .ok () => replaceModuleSchemaChecked p m seeds h

/-- Swap a module in, whatever its data layout. -/
def replaceModuleUnchecked (p : Platform F K) (m : ModuleFile) (seeds : List (Value F))
    (h : Host F K) : Swapped F K :=
  match refuseUnsignedSwapUnderTrust h with
  | .error e => (.error e, h)
  | .ok () => replaceModuleInner p m seeds h

/-- The signature of serialised bytes, and the module they hold. -/
def authenticate (p : Platform F K) (bytes : List Byte) (h : Host F K) :
    Except Framing.LoadError ModuleFile := do
  if Framing.headerRequiresSignature bytes then
    Framing.verifyModuleSignature p.verifyStrict bytes h.verifyingKeys
  else if h.verifyingKeys.isEmpty then .ok ()
  else .error .invalidSignature
  let file ← p.fromBytes bytes
  return { file with flags := file.flags &&& ~~~Framing.flagRequiresSignature }

/-- Authenticate and load a module, and swap it in. -/
def replaceModuleFromBytes (p : Platform F K) (bytes : List Byte) (seeds : List (Value F))
    (h : Host F K) : Swapped F K :=
  match authenticate p bytes h with
  | .error e => (.error (.load e), h)
  | .ok m => replaceModuleSchemaChecked p m seeds h

/-- A swap as the host asks for it. -/
inductive SwapCall
  | replace (m : ModuleFile)
  | replaceUnchecked (m : ModuleFile)
  | replaceFromBytes (bytes : List Byte)

/-- Carry out a swap. -/
def SwapCall.run (p : Platform F K) (seeds : List (Value F)) (h : Host F K) :
    SwapCall → Swapped F K
  | .replace m => replaceModule p m seeds h
  | .replaceUnchecked m => replaceModuleUnchecked p m seeds h
  | .replaceFromBytes bytes => replaceModuleFromBytes p bytes seeds h

end Keleusma
