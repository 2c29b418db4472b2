import Keleusma.Verify.Accepted

/-!
# Trap classification

A module is classified by its instructions alone: trap-free, or with a first explicit `Trap`.
Instructions outside the analysed profile refuse a verdict, and so do modules the verifier
refuses or that are too wide or too long. A verdict excludes language traps and nothing else:
operand shapes, host inputs, storage and resources are not certified.
-/

namespace Keleusma

/-! ## Classifying -/

/-- A place in a module. -/
structure TrapLocation where
  chunk : ℕ
  instruction : ℕ
  deriving DecidableEq, Repr

/-- A completed classification. -/
inductive TrapVerdict
  | trapFree
  | mayTrap (first : TrapLocation)
  deriving DecidableEq, Repr

/-- An instruction outside the analysed profile. -/
inductive UnsupportedTrapOperation
  | indexedValue
  | boxedField
  | nativeCall
  deriving DecidableEq, Repr

/-- Why a module is no valid subject. -/
inductive InvalidSubject
  | widthOrEntryPoint
  | refused (e : VerifyError)
  | unknownTrapKind (location : TrapLocation)
  | reservedImmediate (location : TrapLocation)

/-- Why there is no verdict. -/
inductive TrapAnalysisError
  | invalidModule (detail : InvalidSubject)
  | unsupported (location : TrapLocation) (operation : UnsupportedTrapOperation)
  | capacity (chunk limit actual : ℕ)

/-- The class of one instruction. -/
inductive InstructionTrapClass
  | clear
  | mayTrap
  | unsupported (operation : UnsupportedTrapOperation)

/-- Chunks of more instructions are not analysed. -/
def trapOpcodeCap : ℕ := 8192

/-- The chunks, from the given index on, are not too long. -/
def checkCapacity : ℕ → List Chunk → Except TrapAnalysisError Unit
  | _, [] => .ok ()
  | chunk, body :: chunks =>
    if trapOpcodeCap < body.ops.length then
      .error (.capacity chunk trapOpcodeCap body.ops.length)
    else checkCapacity (chunk + 1) chunks

/-- The checks before the verifier runs. -/
def preflight (m : Module) : Except TrapAnalysisError Unit :=
  if !(3 ≤ m.wordBitsLog2 && m.wordBitsLog2 ≤ 6) || !(3 ≤ m.addrBitsLog2 && m.addrBitsLog2 ≤ 6) ||
      6 < m.floatBitsLog2 || m.entryPoint.any fun entry => m.chunks.length ≤ entry then
    .error (.invalidModule .widthOrEntryPoint)
  else checkCapacity 0 m.chunks

/-- Classify one instruction. -/
def classifyInstruction (location : TrapLocation) :
    Op → Except TrapAnalysisError InstructionTrapClass
  | .trap kind =>
    if (TrapKind.fromCode kind).isNone then .error (.invalidModule (.unknownTrapKind location))
    else .ok .mayTrap
  | .pushImmediate value =>
    if 19 < value then .error (.invalidModule (.reservedImmediate location)) else .ok .clear
  | .getIndex elem =>
    if elem.hasBoundsOutcome then .ok .clear else .ok (.unsupported .indexedValue)
  | .getField (.boxed _) | .getTupleField (.boxed _) | .getEnumField (.boxed _) =>
    .ok (.unsupported .boxedField)
  | .callVerifiedNative _ n | .callExternalNative _ n =>
    if nativeReifies n then .ok .clear else .ok (.unsupported .nativeCall)
  | _ => .ok .clear

/-- What a scan has met so far: the first trap and the first unsupported instruction. -/
structure TrapScan where
  first : Option TrapLocation := none
  unsupported : Option (TrapLocation × UnsupportedTrapOperation) := none

/-- Take note of the class of an instruction. -/
def TrapScan.note (s : TrapScan) (location : TrapLocation) : InstructionTrapClass → TrapScan
  | .clear => s
  | .mayTrap => { s with first := s.first.or (some location) }
  | .unsupported operation => { s with unsupported := s.unsupported.or (some (location, operation)) }

/-- Scan the instructions of a chunk from the given position on. -/
def scanOps (chunk : ℕ) : ℕ → List Op → TrapScan → Except TrapAnalysisError TrapScan
  | _, [], s => .ok s
  | ip, op :: ops, s => do
    let c ← classifyInstruction ⟨chunk, ip⟩ op
    scanOps chunk (ip + 1) ops (s.note ⟨chunk, ip⟩ c)

/-- Scan the chunks from the given index on. -/
def scanChunks : ℕ → List Chunk → TrapScan → Except TrapAnalysisError TrapScan
  | _, [], s => .ok s
  | chunk, body :: chunks, s => do
    let s ← scanOps chunk 0 body.ops s
    scanChunks (chunk + 1) chunks s

/-- Classify a module. -/
def classifyTraps (m : Module) : Except TrapAnalysisError TrapVerdict := do
  preflight m
  (verify m).mapError fun e => .invalidModule (.refused e)
  let s ← scanChunks 0 m.chunks {}
  match s.unsupported, s.first with
  | some (location, operation), _ => throw (.unsupported location operation)
  | none, some first => return .mayTrap first
  | none, none => return .trapFree

/-! ## What a verdict says -/

/-- The class of the instruction is clear. -/
def Op.Clear (op : Op) : Prop := ∃ location, classifyInstruction location op = .ok .clear

/-- Nothing has been met. -/
def TrapScan.Empty (s : TrapScan) : Prop := s.first = none ∧ s.unsupported = none

/-- A note that leaves a scan empty is of a clear instruction. -/
theorem TrapScan.note_empty {s : TrapScan} {location : TrapLocation} {c : InstructionTrapClass}
    (h : (s.note location c).Empty) : c = .clear ∧ s.Empty := by
  obtain ⟨hfirst, hunsupported⟩ := h
  cases c with
  | clear => exact ⟨rfl, hfirst, hunsupported⟩
  | mayTrap => cases hs : s.first <;> simp [TrapScan.note, hs] at hfirst
  | unsupported operation => cases hs : s.unsupported <;> simp [TrapScan.note, hs] at hunsupported

theorem scanOps_empty {chunk ip : ℕ} {ops : List Op} {s s' : TrapScan}
    (h : scanOps chunk ip ops s = .ok s') (hempty : s'.Empty) :
    s.Empty ∧ ∀ op ∈ ops, op.Clear := by
  induction ops generalizing ip s with
  | nil =>
    cases h
    exact ⟨hempty, by simp⟩
  | cons op ops ih =>
    obtain ⟨c, hc, h⟩ := bind_eq_ok h
    obtain ⟨hnote, hrest⟩ := ih h
    obtain ⟨rfl, hs⟩ := TrapScan.note_empty hnote
    refine ⟨hs, ?_⟩
    intro op' hop'
    rcases List.mem_cons.1 hop' with rfl | hop'
    · exact ⟨_, hc⟩
    · exact hrest op' hop'

theorem scanChunks_empty {chunk : ℕ} {chunks : List Chunk} {s s' : TrapScan}
    (h : scanChunks chunk chunks s = .ok s') (hempty : s'.Empty) :
    s.Empty ∧ ∀ c ∈ chunks, ∀ op ∈ c.ops, op.Clear := by
  induction chunks generalizing chunk s with
  | nil =>
    cases h
    exact ⟨hempty, by simp⟩
  | cons body chunks ih =>
    obtain ⟨s₁, h₁, h⟩ := bind_eq_ok h
    obtain ⟨hs₁, hrest⟩ := ih h
    obtain ⟨hs, hops⟩ := scanOps_empty h₁ hs₁
    refine ⟨hs, ?_⟩
    intro c hc
    rcases List.mem_cons.1 hc with rfl | hc
    · exact hops
    · exact hrest c hc

/-- **A trap-free module is accepted, its words have at least a byte, and its instructions are
clear.** -/
theorem classifyTraps_trapFree {m : Module} (h : classifyTraps m = .ok .trapFree) :
    verify m = .ok () ∧ 3 ≤ m.wordBitsLog2 ∧ ∀ c ∈ m.chunks, ∀ op ∈ c.ops, op.Clear := by
  obtain ⟨_, hpre, h⟩ := bind_eq_ok h
  obtain ⟨_, hverify, h⟩ := bind_eq_ok h
  obtain ⟨s, hscan, h⟩ := bind_eq_ok h
  refine ⟨mapError_eq_ok hverify, ?_, ?_⟩
  · unfold preflight at hpre
    split at hpre
    · cases hpre
    · next hwidth =>
      simp only [Bool.or_eq_true, not_or] at hwidth
      have hword := hwidth.1.1.1
      simp at hword
      omega
  · refine (scanChunks_empty hscan ?_).2
    split at h
    · cases h
    · cases h
    · next hunsupported hfirst => exact ⟨hfirst, hunsupported⟩

end Keleusma
