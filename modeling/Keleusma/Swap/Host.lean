import Keleusma.Framing.Loading
import Keleusma.Runtime.Machine
import Keleusma.Verify.Elision

/-!
# A machine between runs

What a hot swap works on is more than the state of a run: the image the machine was loaded from,
its decoded instructions, the pool of its constants, the counts of its data slots, the proof under
which operand checks are elided, and the keys and the policy of the host. `Host` has them all
beside the machine's state.

`Platform` collects what no swap changes. The passes over a whole module that no part of the swap
looks into are functions of it: the resource bounds, the footprint, and the codec of the image.
-/

namespace Keleusma

open KeleusmaWire (Byte)

/-! ## Modules and images -/

/-- A module with the fields that the swap reads beside those of a run. -/
structure ModuleFile extends Module where
  flags : Byte
  schemaHash : ℕ
  auxArenaBytes : ℕ

/-- The image of a loaded module: its bytes and the module they hold. -/
structure Image where
  bytes : List Byte
  file : ModuleFile

/-- What a host lets a module do. -/
inductive TrapPolicy
  | allow | requireTrapFree
  deriving DecidableEq

/-- Whether the machine checks operands or relies on a proof that they are there. -/
inductive ExecutionChecks
  | checked | proven
  deriving DecidableEq

/-- How far the proof of the operand checks has come. -/
inductive ExecutionProofState
  | inactive | ready | prepared | yielded | reset | breakpoint | finished | poisoned
  deriving DecidableEq

/-- The working set of a module at the bottom of the arena. -/
structure Reservations where
  operandSlots : ℕ
  frameDepth : ℕ
  opaqueCapacity : ℕ
  deriving DecidableEq

/-! ## Errors -/

/-- Why a swap fails, with the data the texts show. -/
inductive SwapError
  | load (e : Framing.LoadError)
  | schemaMismatch (current new : ℕ)
  | trapPolicy (verdict : TrapVerdict)
  | trapPolicyUnavailable (e : TrapAnalysisError)
  | wordTooWide (declared runtime : ℕ)
  | addressTooWide (declared runtime : ℕ)
  | floatUnimplemented (declared : ℕ)
  | floatTooWide (declared runtime : ℕ)
  | refused (e : VerifyError)
  | resourceBounds (chunkName message : String)
  | slotCountExceeded (visibility : SlotVisibility)
  | privateSizeMismatch (declared supplied : ℕ)
  | persistentCapacityTooSmall (capacity required slots composites : ℕ)
  | workingSet (bytes : ℕ) (r : Reservations) (dualHeadedCapacity : ℕ)
  | imageDiffers
  | provenNeedsTrapFree
  | operandPops (e : ElisionError)
  | operandResources (chunkName message : String)
  | auxBody (message : String)
  | resetUnproven
  | noEntryPoint
  | signatureRequired
  | vm (e : VmError)

/-! ## The platform -/

/-- The size and the alignment of the elements of a vector. -/
structure ElementLayout where
  size : ℕ
  align : ℕ

/-- What no swap changes. -/
structure Platform (F K : Type) where
  /-- The environment of a run, up to the module. -/
  base : Env F
  addressBitsLog2 : ℕ
  floatBitsLog2 : ℕ
  valueAlign : ℕ
  callFrame : ElementLayout
  arc : ElementLayout
  verifyStrict : K → List Byte → List Byte → Bool
  /-- Whether the bounds on memory fit an arena of the given capacity. -/
  resourceBounds : Module → ℕ → Except (String × String) Unit
  /-- The greatest height of the operand stack and depth of frames, when they can be computed. -/
  runtimeFootprint : Module → Option (ℕ × ℕ)
  toBytes : ModuleFile → Except Framing.LoadError (List Byte)
  fromBytes : List Byte → Except Framing.LoadError ModuleFile
  decodeAllOps : List Byte → Except SwapError (List (List Op))
  /-- Whether the auxiliary body resolves. -/
  resolveAux : List Byte → Except String Unit

variable {F K : Type}

/-- The environment of a run of the module. -/
def Platform.env (p : Platform F K) (m : Module) : Env F := { p.base with module := m }

/-- The layout of a stack slot. -/
def Platform.value (p : Platform F K) : ElementLayout := ⟨p.base.valueSlotBytes, p.valueAlign⟩

/-! ## The machine and its host -/

/-- A body of the constant pool, by chunk and constant. -/
abbrev ConstPool := List (List (Option (CompositeKind × List UInt8)))

/-- A machine between runs. -/
structure Host (F K : Type) where
  image : Image
  decodedOps : List (List Op)
  sharedSlotCount : ℕ
  privateSlotCount : ℕ
  vm : Vm F
  constPool : ConstPool
  reserved : Reservations
  nativeClassificationsVerified : Bool
  verifyingKeys : List K
  trapPolicy : TrapPolicy
  executionChecks : ExecutionChecks
  proofState : ExecutionProofState
  popProof : Bool
  elidePops : Bool

/-! ## The arena -/

namespace Arena

/-- The bytes of the two bump regions. -/
def dualHeadedCapacity (a : Arena) : ℕ := a.capacity - a.persistentCapacity

/-- Reclaim both bump regions, unless the epoch is saturated. -/
def resetUnchecked (a : Arena) : Option Arena :=
  if a.epoch + 1 < 2 ^ 64 then
    some { a with bottomTop := a.persistentCapacity, topTop := a.capacity, epoch := a.epoch + 1 }
  else none

/-- Allocate at the bottom end, aligned. -/
def allocBottom (a : Arena) (size align : ℕ) : Option Arena :=
  let offset := (a.base + a.bottomTop + (align - 1)) / align * align - a.base
  if offset + size ≤ a.topTop then some { a with bottomTop := offset + size } else none

/-- Reserve room for `n` elements of a fresh vector; without room the vector grows on demand. -/
def reserve (a : Arena) (n : ℕ) (e : ElementLayout) : Arena :=
  if n * e.size = 0 then a else (a.allocBottom (n * e.size) e.align).getD a

@[simp] theorem reserve_epoch (a : Arena) (n : ℕ) (e : ElementLayout) :
    (a.reserve n e).epoch = a.epoch := by
  unfold reserve
  split
  · rfl
  · unfold allocBottom
    simp only
    split <;> rfl

end Arena

end Keleusma
