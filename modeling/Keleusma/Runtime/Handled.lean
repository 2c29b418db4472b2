import Keleusma.Runtime.Allocation
import Keleusma.Runtime.Stepping

/-!
# Properties of everything the machine does

The handlers of the instructions are built from a few primitive operations: they read the state,
change parts of it other than the arena and the private data, allocate, call a native, reset the
arena's top region, and raise an error. A property of programs that these operations have and that
sequencing keeps (`Handled`) therefore holds of every instruction and of the host's calls, up to
two kinds of instruction. Writes to data slots are left to a hypothesis. And the language traps are
raised only by an explicit `Trap`, by an access to a boxed body and by an indexed read without a
bounds outcome, so all other instructions (`Op.Trapless`) need only what is quiet to be allowed.

Each error has a category. The errors of the category a script may recover from are the type
errors, which say that operands have not the shape an instruction expects, and the language traps.
-/

namespace Keleusma

open StackEffect

/-! ## Categories of errors -/

/-- What a host can do about an error. -/
inductive VmErrorCategory
  | halt
  | softScript
  | softHost
  deriving DecidableEq, Repr

/-- The category of an error. A native reports a soft failure or stops the machine; a check of the
language itself stops everything. -/
def VmError.category : VmError → VmErrorCategory
  | .stackUnderflow | .invalidBytecode _ | .outOfArena _ | .notSuspended | .panicked _ => .halt
  | .typeError _ | .divisionByZero | .indexOutOfBounds _ _ | .fieldNotFound _ _
  | .refinementFailed | .noMatchingHead | .noMatchingArm | .checkedArithNoArm
  | .enumVariantUnmapped | .assertionFailed | .loopLimitExceeded => .softScript
  | .nativeError _ | .nativeErrorCode _ _ => .softHost
  | .host e => if e.softHost then .softHost else .halt

/-- The error is not in the category of the language traps, or it is a type error. -/
def VmError.Quiet (e : VmError) : Prop :=
  e.category = .softScript → ∃ message, e = .typeError message

theorem VmError.quiet_typeError (message : String) : (VmError.typeError message).Quiet :=
  fun _ => ⟨message, rfl⟩

theorem VmError.quiet_of_halt {e : VmError} (h : e.category = .halt) : e.Quiet := by
  intro hsoft
  rw [h] at hsoft
  cases hsoft

theorem VmError.quiet_of_softHost {e : VmError} (h : e.category = .softHost) : e.Quiet := by
  intro hsoft
  rw [h] at hsoft
  cases hsoft

/-- A native's own error is quiet. -/
theorem VmError.quiet_host (e : HostError) : (VmError.host e).Quiet := by
  intro hsoft
  simp only [VmError.category] at hsoft
  split at hsoft <;> cases hsoft

variable {F α : Type} {env : Env F}

/-! ## Instructions -/

/-- The instruction raises no language trap. -/
def Op.Trapless (env : Env F) : Op → Prop
  | .trap _ | .getField (.boxed _) | .getTupleField (.boxed _) | .getEnumField (.boxed _) => False
  | .getIndex elem => elem.hasBoundsOutcome ∧ (Op.getIndex elem).Sized env
  | _ => True

/-- The instruction writes a data slot. -/
def Op.Writes : Op → Prop
  | .setData _ | .setDataIndexed _ _ => True
  | _ => False

/-! ## Handled properties -/

/-- The property `P` holds of the primitive operations and of what is built from them; the errors
that `T` allows may be raised. -/
structure Handled (env : Env F) (T : VmError → Prop) (P : ∀ {α : Type}, Exec F α → Prop) :
    Prop where
  fault : ∀ {e : VmError}, e.Quiet → T e
  raise : ∀ {α : Type} {e : VmError}, T e → P (throw e : Exec F α)
  value : ∀ {α : Type} (a : α), P (pure a)
  andThen : ∀ {α β : Type} {m : Exec F α} {k : α → Exec F β}, P m → (∀ a, P (k a)) → P (m >>= k)
  look : P (get : Exec F (Vm F))
  /-- A change that leaves the arena and the private data alone. -/
  change : ∀ {f : Vm F → Vm F}, (∀ s, (f s).arena = s.arena ∧ (f s).privateData = s.privateData) →
    P (modify f : Exec F PUnit)
  allocate : ∀ {α : Type} (region : String) {m : ArenaM α}, Allocates m →
    P (inArena region m : Exec F α)
  call : ∀ {name : String} {entry : Native F}, env.natives name = some entry →
    ∀ {β : Type} (args : List (Value F)) (k : Except HostError (Value F) → Exec F β),
      (∀ r, P (k r)) → P (do
        let s ← get
        let r := entry.func s.nativeCalls s.arena s.ephemeralOpaques args
        modify fun s => { s with arena := r.2, nativeCalls := s.nativeCalls + 1 }
        k r.1)
  reset : ∀ stack : List (Value F), P (modify fun s : Vm F =>
    { s with stack, arena := s.arena.resetTop, ephemeralOpaques := [] } : Exec F PUnit)

theorem toVmError_halt (e : ScalarError) : e.toVmError.category = .halt := by cases e <;> rfl

/-- A fault of the codec stops the machine. -/
theorem readFlatScalar_halt {w : Widths} {fo : FloatOps F} {bytes : List UInt8} {offset : ℕ}
    {kind : ScalarKind} {ep : ℕ} {e : VmError}
    (h : readFlatScalar fo w bytes offset kind ep = .error e) : e.category = .halt := by
  unfold readFlatScalar at h
  split at h
  · split at h
    · cases h
      rfl
    · split at h
      · cases h
        rfl
      · cases h
  · split at h
    · split at h <;> cases h
    · cases h
      rfl
  · cases hr : readScalarLe fo w bytes offset kind with
    | error e' =>
      rw [hr] at h
      cases h
      exact toVmError_halt e'
    | ok v =>
      rw [hr] at h
      cases h

section

variable {T : VmError → Prop} {P : ∀ {α : Type}, Exec F α → Prop} (hP : Handled env T @P)

include hP

theorem handled_type (message : String) : P (throw (.typeError message) : Exec F α) :=
  hP.raise (hP.fault (VmError.quiet_typeError message))

theorem handled_halt {e : VmError} (h : e.category = .halt) : P (throw e : Exec F α) :=
  hP.raise (hP.fault (VmError.quiet_of_halt h))

theorem handled_mapM {γ : Type} {f : γ → Exec F α} (hf : ∀ x, P (f x)) (xs : List γ) :
    P (xs.mapM f) := by
  induction xs with
  | nil => exact hP.value []
  | cons x xs ih =>
    rw [List.mapM_cons]
    exact hP.andThen (hf x) fun _ => hP.andThen ih fun _ => hP.value _

/-! ## Primitive operations -/

theorem handled_setStack (stack : List (Value F)) : P (setStack stack) := hP.change fun _ =>
  ⟨rfl, rfl⟩

theorem handled_pop : P (pop : Exec F (Value F)) := by
  refine hP.andThen hP.look fun s => ?_
  split
  · exact handled_halt hP rfl
  · exact hP.andThen hP.look fun s => hP.andThen (handled_setStack hP _) fun _ => hP.value _

theorem handled_peekOperand : P (peekOperand : Exec F (Value F)) := by
  refine hP.andThen hP.look fun s => ?_
  split
  · exact handled_halt hP rfl
  · exact hP.value _

theorem handled_push (v : Value F) : P (push env v) := by
  refine hP.andThen hP.look fun s => ?_
  split
  · exact hP.andThen hP.look fun s => handled_setStack hP _
  · exact handled_halt hP rfl

theorem handled_pushAll (vs : List (Value F)) : P (pushAll env vs) := by
  induction vs with
  | nil => exact hP.value ()
  | cons v vs ih => exact hP.andThen (handled_push hP v) fun _ => ih

theorem handled_operandStart (n : ℕ) : P (operandStart n : Exec F ℕ) := by
  refine hP.andThen hP.look fun s => ?_
  split
  · exact hP.andThen hP.look fun s => hP.value _
  · exact handled_halt hP rfl

theorem handled_drain (n : ℕ) : P (drain n : Exec F (List (Value F))) :=
  hP.andThen (handled_operandStart hP n) fun _ => hP.andThen hP.look fun _ =>
    hP.andThen hP.look fun _ =>
    hP.andThen (handled_setStack hP _) fun _ => hP.value _

theorem handled_inRegistry (m : StateM (List ℕ) α) : P (inRegistry m : Exec F α) :=
  hP.andThen hP.look fun _ => hP.andThen (hP.change fun _ => ⟨rfl, rfl⟩) fun _ => hP.value _

theorem handled_resolveBody (body : Handle) : P (resolveBody body : Exec F (List UInt8)) := by
  refine hP.andThen hP.look fun s => ?_
  split
  · exact handled_halt hP rfl
  · exact hP.value _

theorem handled_nestedField (body : Handle) (offset size : ℕ) (variant : CompositeKind) :
    P (nestedField body offset size variant : Exec F (Value F)) := by
  refine hP.andThen hP.look fun s => ?_
  split
  · exact handled_halt hP rfl
  · exact hP.value _

theorem handled_ofScalar (r : Except ScalarError α) : P (ofScalar r : Exec F α) := by
  unfold ofScalar
  split
  · exact hP.value _
  · next e => exact handled_halt hP (toVmError_halt e)

/-- A result without state, whose errors stop the machine. -/
theorem handled_ofResult {r : Except VmError α} (h : ∀ e, r = .error e → e.category = .halt) :
    P (ofResult r : Exec F α) := by
  unfold ofResult
  split
  · exact hP.value _
  · next e => exact handled_halt hP (h e rfl)

theorem handled_readLocal (i : ℕ) : P (readLocal i : Exec F (Value F)) := by
  refine hP.andThen hP.look fun s => ?_
  split
  · exact hP.value _
  · exact handled_halt hP rfl

theorem handled_writeLocal (i : ℕ) (v : Value F) : P (writeLocal i v) := by
  refine hP.andThen hP.look fun s => ?_
  split
  · exact hP.andThen hP.look fun s => handled_setStack hP _
  · exact handled_halt hP rfl

/-! ## Data slots -/

theorem handled_readSharedFromBuffer (slot : ℕ) : P (readSharedFromBuffer env slot) := by
  unfold readSharedFromBuffer
  split
  · exact handled_halt hP rfl
  refine hP.andThen hP.look fun s => ?_
  split
  · exact hP.raise (hP.fault (VmError.quiet_of_softHost rfl))
  split
  · split
    · exact handled_halt hP rfl
    · exact handled_ofScalar hP _
  · split
    · exact handled_halt hP rfl
    · split
      · exact handled_halt hP rfl
      · exact hP.andThen (hP.allocate _ (.build _)) fun _ => hP.value _

theorem handled_readDataSlot (slot : ℕ) : P (readDataSlot env slot) := by
  unfold readDataSlot
  split
  · exact handled_readSharedFromBuffer hP slot
  · exact hP.andThen hP.look fun _ => hP.value _

theorem handled_writeSharedToBuffer (slot : ℕ) (v : Value F) :
    P (writeSharedToBuffer env slot v) := by
  unfold writeSharedToBuffer
  split
  · exact handled_halt hP rfl
  split
  · refine hP.andThen hP.look fun s => ?_
    split
    · exact hP.raise (hP.fault (VmError.quiet_of_softHost rfl))
    · split
      · split
        · exact hP.change fun _ => ⟨rfl, rfl⟩
        · exact handled_halt hP rfl
      · exact handled_halt hP rfl
  · split
    · exact handled_type hP _
    · refine hP.andThen (handled_resolveBody hP _) fun bytes => ?_
      split
      · exact handled_halt hP rfl
      · refine hP.andThen hP.look fun s => ?_
        split
        · exact hP.raise (hP.fault (VmError.quiet_of_softHost rfl))
        · exact hP.change fun _ => ⟨rfl, rfl⟩

/-! ## Arithmetic -/

theorem handled_pushTriple (low high : Value F) (flag : Int) :
    P (pushTriple env low high flag) :=
  hP.andThen (handled_push hP low) fun _ => hP.andThen (handled_push hP high) fun _ =>
    handled_push hP _

theorem handled_binaryArith (intOp : Int → Int → Int) (floatOp : F → F → F)
    (fault : String → String → String) : P (binaryArith env intOp floatOp fault) := by
  refine hP.andThen (handled_pop hP) fun b => hP.andThen (handled_pop hP) fun a => ?_
  split
  · exact handled_push hP _
  · exact handled_push hP _
  · exact handled_push hP _
  · exact handled_type hP _

theorem handled_execNeg : P (execNeg env) := by
  refine hP.andThen (handled_pop hP) fun v => ?_
  split
  · exact handled_push hP _
  · exact handled_push hP _
  · exact handled_push hP _
  · exact handled_type hP _

theorem handled_checkedBinary (name : String) (intOp : Int → Int → Int) (floatOp : F → F → F) :
    P (checkedBinary env name intOp floatOp) := by
  refine hP.andThen (handled_pop hP) fun b => hP.andThen (handled_pop hP) fun a => ?_
  split
  · exact handled_pushTriple hP _ _ _
  · exact handled_pushTriple hP _ _ _
  · exact handled_pushTriple hP _ _ _
  · exact handled_pushTriple hP _ _ _
  · exact handled_type hP _

theorem handled_execCheckedMul (fracBits : ℕ) : P (execCheckedMul env fracBits) := by
  refine hP.andThen (handled_pop hP) fun b => hP.andThen (handled_pop hP) fun a => ?_
  split
  · exact handled_pushTriple hP _ _ _
  · exact handled_pushTriple hP _ _ _
  · exact handled_pushTriple hP _ _ _
  · split
    · exact handled_halt hP rfl
    · exact handled_pushTriple hP _ _ _
  · exact handled_type hP _

theorem handled_execCheckedNeg : P (execCheckedNeg env) := by
  refine hP.andThen (handled_pop hP) fun v => ?_
  split
  · exact handled_pushTriple hP _ _ _
  · exact handled_pushTriple hP _ _ _
  · exact handled_type hP _

/-- A zero divisor is reported on the stack. -/
theorem handled_execDiv (fracBits : ℕ) : P (execDiv env fracBits) := by
  refine hP.andThen (handled_pop hP) fun b => hP.andThen (handled_pop hP) fun a => ?_
  split
  · split <;> exact handled_pushTriple hP _ _ _
  · split <;> exact handled_pushTriple hP _ _ _
  · exact handled_pushTriple hP _ _ _
  · split
    · exact handled_pushTriple hP _ _ _
    · split
      · exact handled_halt hP rfl
      · exact handled_pushTriple hP _ _ _
  · exact handled_type hP _

theorem handled_execMod (plain : Bool) : P (execMod env plain) := by
  refine hP.andThen (handled_pop hP) fun b => hP.andThen (handled_pop hP) fun a => ?_
  split
  · split <;> exact handled_pushTriple hP _ _ _
  · split <;> exact handled_pushTriple hP _ _ _
  · split <;> exact handled_pushTriple hP _ _ _
  · split
    · exact handled_pushTriple hP _ _ _
    · exact handled_type hP _
  · exact handled_type hP _

theorem handled_execFixedMul (fracBits : ℕ) : P (execFixedMul env fracBits) := by
  unfold execFixedMul
  split
  · exact handled_halt hP rfl
  · refine hP.andThen (handled_pop hP) fun b => hP.andThen (handled_pop hP) fun a => ?_
    split
    · exact handled_push hP _
    · exact handled_type hP _

theorem handled_execFixedDiv (fracBits : ℕ) : P (execFixedDiv env fracBits) := by
  unfold execFixedDiv
  split
  · exact handled_halt hP rfl
  · refine hP.andThen (handled_pop hP) fun b => hP.andThen (handled_pop hP) fun a => ?_
    split
    · split <;> exact handled_pushTriple hP _ _ _
    · exact handled_type hP _

theorem handled_execBitwise (name : String) (f : ℕ → ℕ → ℕ) : P (execBitwise env name f) := by
  refine hP.andThen (handled_pop hP) fun b => hP.andThen (handled_pop hP) fun a => ?_
  split
  · exact handled_push hP _
  · exact handled_type hP _

theorem handled_execShift (name : String) (f : Int → ℕ → Int) : P (execShift env name f) := by
  refine hP.andThen (handled_pop hP) fun b => hP.andThen (handled_pop hP) fun a => ?_
  split
  · exact handled_push hP _
  · exact handled_type hP _

/-! ## Comparisons and conversions -/

theorem handled_stringContents (a b : Value F) : P (stringContents a b) := by
  refine hP.andThen hP.look fun s => ?_
  dsimp only
  split
  · exact hP.value _
  · exact handled_type hP _
  · exact hP.value _

theorem handled_execCmpEq (negate : Bool) : P (execCmpEq env negate) := by
  refine hP.andThen (handled_pop hP) fun b => hP.andThen (handled_pop hP) fun a =>
    hP.andThen (handled_stringContents hP a b) fun r => ?_
  split
  · exact handled_push hP _
  · split
    · exact handled_type hP _
    · exact handled_push hP _

theorem handled_compareOp (pred : Ordering → Bool) : P (compareOp env pred) := by
  refine hP.andThen (handled_pop hP) fun b => hP.andThen (handled_pop hP) fun a => ?_
  split
  · exact handled_push hP _
  · exact handled_push hP _
  · exact handled_push hP _
  · exact handled_push hP _
  · refine hP.andThen (handled_stringContents hP _ _) fun r => ?_
    split
    · exact handled_push hP _
    · exact handled_type hP _

theorem handled_execNot : P (execNot env) := by
  refine hP.andThen (handled_pop hP) fun v => ?_
  split
  · exact handled_push hP _
  · exact handled_type hP _

theorem handled_execIntToFloat : P (execIntToFloat env) := by
  refine hP.andThen (handled_pop hP) fun v => ?_
  split
  · exact handled_push hP _
  · exact handled_type hP _

theorem handled_execFloatToInt : P (execFloatToInt env) := by
  refine hP.andThen (handled_pop hP) fun v => ?_
  split
  · exact handled_push hP _
  · exact handled_type hP _

theorem handled_execWordToByte : P (execWordToByte env) := by
  refine hP.andThen (handled_pop hP) fun v => ?_
  split
  · exact handled_push hP _
  · exact handled_type hP _

theorem handled_execByteToWord : P (execByteToWord env) := by
  refine hP.andThen (handled_pop hP) fun v => ?_
  split
  · exact handled_push hP _
  · exact handled_type hP _

theorem handled_execWordToFixed (fracBits : ℕ) : P (execWordToFixed env fracBits) := by
  refine hP.andThen (handled_pop hP) fun v => ?_
  split
  · split <;> exact handled_push hP _
  · exact handled_type hP _

theorem handled_execFixedToWord (fracBits : ℕ) : P (execFixedToWord env fracBits) := by
  unfold execFixedToWord
  split
  · exact handled_halt hP rfl
  · refine hP.andThen (handled_pop hP) fun v => ?_
    split
    · exact handled_push hP _
    · exact handled_type hP _

/-! ## Data -/

theorem handled_execPushImmediate (value : ℕ) : P (execPushImmediate env value) := by
  unfold execPushImmediate
  split_ifs
  · exact handled_push hP _
  · exact handled_push hP _
  · exact handled_push hP _
  · exact handled_push hP _
  · exact handled_push hP _
  · exact handled_halt hP rfl

theorem handled_execGetData (slot : ℕ) : P (execGetData env slot) := by
  unfold execGetData
  split
  · exact handled_halt hP rfl
  · exact hP.andThen (handled_readDataSlot hP slot) fun _ => handled_push hP _

theorem handled_execSetData (hwrite : ∀ slot v, P (writeDataSlot env slot v)) (slot : ℕ) :
    P (execSetData env slot) := by
  unfold execSetData
  split
  · exact handled_halt hP rfl
  · exact hP.andThen (handled_pop hP) fun v => hwrite slot v

theorem handled_execGetDataIndexed (b len : ℕ) : P (execGetDataIndexed env b len) := by
  refine hP.andThen (handled_pop hP) fun fallback => ?_
  split
  all_goals try exact handled_type hP _
  all_goals
    refine hP.andThen (handled_pop hP) fun index => ?_
    split
    · split
      · exact handled_halt hP rfl
      · simp only [pure_bind]
        split
        · exact hP.andThen (handled_push hP _) fun _ => handled_pushAll hP _
        · exact hP.andThen (handled_readDataSlot hP _) fun _ =>
            hP.andThen (handled_push hP _) fun _ => handled_pushAll hP _
    · exact handled_type hP _

theorem handled_execSetDataIndexed (hwrite : ∀ slot v, P (writeDataSlot env slot v)) (b len : ℕ) :
    P (execSetDataIndexed env b len) := by
  refine hP.andThen (handled_pop hP) fun index => ?_
  split
  · refine hP.andThen (handled_pop hP) fun value => ?_
    split
    · exact handled_halt hP rfl
    · dsimp only
      split
      · exact handled_pushAll hP _
      · exact hP.andThen (hwrite _ _) fun _ => handled_pushAll hP _
  · exact handled_type hP _

theorem handled_execBoundsCheck (bound : ℕ) : P (execBoundsCheck env bound) := by
  refine hP.andThen (handled_peekOperand hP) fun v => ?_
  split
  · exact handled_pushAll hP _
  · exact handled_type hP _

/-! ## Composites -/

theorem handled_internOperands (values : List (Value F)) : P (internOperands values) := by
  refine handled_mapM hP (fun v => ?_) values
  split
  · exact hP.andThen (handled_inRegistry hP _) fun _ => hP.value _
  · exact hP.andThen (hP.allocate _ (.allocText _)) fun _ => hP.value _
  · exact hP.value _

theorem handled_execNewComposite (chunkIdx : ℕ) (operand : NewCompositeOperand) :
    P (execNewComposite env chunkIdx operand) := by
  refine hP.andThen (handled_drain hP _) fun values => ?_
  split
  · refine hP.andThen (handled_internOperands hP _) fun values =>
      hP.andThen (hP.allocate _ (.packM _ _)) fun body => ?_
    split
    · exact handled_push hP _
    · split
      · exact handled_push hP _
      · exact handled_push hP _
      · exact handled_halt hP rfl
  · split
    · exact handled_push hP _
    · exact handled_push hP _
    · exact handled_push hP _
    · exact handled_halt hP rfl

theorem handled_readFlatScalar (bytes : List UInt8) (offset : ℕ) (kind : ScalarKind) (ep : ℕ) :
    P (ofResult (readFlatScalar env.fo env.widths bytes offset kind ep) : Exec F (Value F)) :=
  handled_ofResult hP fun _ => readFlatScalar_halt

theorem handled_execFlatField (body : Handle) (offset : ℕ) (kind : ScalarKind) :
    P (execFlatField env body offset kind) :=
  hP.andThen (handled_resolveBody hP _) fun _ =>
    hP.andThen (handled_readFlatScalar hP _ _ _ _) fun _ => handled_push hP _

theorem handled_execFlatNested (body : Handle) (offset size : ℕ) (variant : CompositeKind) :
    P (execFlatNested env body offset size variant) :=
  hP.andThen (handled_nestedField hP _ _ _ _) fun _ => handled_push hP _

theorem handled_execBoxedAt (hT : ∀ e, T e) (elems : List (Value F)) (i : ℕ) :
    P (execBoxedAt env elems i) := by
  unfold execBoxedAt
  split
  · exact handled_push hP _
  · exact hP.raise (hT _)

theorem handled_execGetField {chunkIdx : ℕ} {field : StructField}
    (h : (∀ e, T e) ∨ ∀ i, field ≠ .boxed i) : P (execGetField env chunkIdx field) := by
  refine hP.andThen (handled_pop hP) fun v => ?_
  split
  · split
    · exact handled_execFlatField hP _ _ _
    · exact handled_execFlatNested hP _ _ _ _
    · exact handled_halt hP rfl
  · split
    · rcases h with hT | h
      · split
        · exact handled_halt hP rfl
        · split
          · exact handled_push hP _
          · exact hP.raise (hT _)
      · exact absurd rfl (h _)
    · exact handled_halt hP rfl
  · exact handled_type hP _

theorem handled_execGetTupleField {field : TupleField}
    (h : (∀ e, T e) ∨ ∀ i, field ≠ .boxed i) : P (execGetTupleField env field) := by
  refine hP.andThen (handled_pop hP) fun v => ?_
  split
  · split
    · exact handled_execFlatField hP _ _ _
    · exact handled_execFlatNested hP _ _ _ _
    · exact handled_halt hP rfl
  · split
    · rcases h with hT | h
      · exact handled_execBoxedAt hP hT _ _
      · exact absurd rfl (h _)
    · exact handled_halt hP rfl
  · exact handled_type hP _

theorem handled_execGetEnumField {field : EnumField}
    (h : (∀ e, T e) ∨ ∀ i, field ≠ .boxed i) : P (execGetEnumField env field) := by
  refine hP.andThen (handled_pop hP) fun v => ?_
  split
  · split
    · exact handled_execFlatField hP _ _ _
    · exact handled_execFlatNested hP _ _ _ _
    · exact handled_halt hP rfl
  · split
    · rcases h with hT | h
      · exact handled_execBoxedAt hP hT _ _
      · exact absurd rfl (h _)
    · exact handled_halt hP rfl
  · exact handled_type hP _

/-! ## Indexed reads and tests -/

theorem handled_indexOutcomeBound (len : ℕ) : P (ofResult (indexOutcomeBound len) : Exec F ℕ) := by
  refine handled_ofResult hP fun e h => ?_
  unfold indexOutcomeBound at h
  split at h
  · cases h
  · cases h
    rfl

theorem handled_pushIndexOutcome (v : Value F) (i : Int) (bound : ℕ) (invalid : Bool) :
    P (pushIndexOutcome env v i bound invalid) :=
  hP.andThen (handled_push hP _) fun _ => handled_pushAll hP _

theorem handled_execIndexBoxed (elems : List (Value F)) (i : Int) :
    P (execIndexBoxed env elems i) :=
  hP.andThen (handled_indexOutcomeBound hP _) fun _ => handled_pushIndexOutcome hP _ _ _ _

theorem handled_execIndexNested (body : Handle) (size : ℕ) (variant : CompositeKind) (i : Int) :
    P (execIndexNested env body size variant i) := by
  refine hP.andThen (handled_indexOutcomeBound hP _) fun bound => ?_
  dsimp only
  split
  · exact hP.andThen (hP.allocate _ (.build _)) fun _ =>
      hP.andThen (handled_nestedField hP _ _ _ _) fun _ =>
      handled_pushIndexOutcome hP _ _ _ _
  · exact hP.andThen (handled_nestedField hP _ _ _ _) fun _ => handled_pushIndexOutcome hP _ _ _ _

/-- Words and bytes report an index outside the array on the stack; other kinds fault. -/
theorem handled_execIndexFlat {kind : ScalarKind}
    (h : (∀ e, T e) ∨ (ArrayElem.flat kind).hasBoundsOutcome ∧ env.widths.size kind ≠ 0)
    (body : Handle) (i : Int) : P (execIndexFlat env (.flat kind) kind body i) := by
  refine hP.andThen (handled_resolveBody hP _) fun bytes => ?_
  simp only [pure_bind]
  split
  next hsize =>
    rcases h with hT | h
    · split
      · exact hP.raise (hT _)
      · exact hP.andThen (handled_readFlatScalar hP _ _ _ _) fun _ => handled_push hP _
    · exact absurd hsize h.2
  · split
    · split
      · exact handled_halt hP rfl
      · refine hP.andThen (handled_indexOutcomeBound hP _) fun bound => ?_
        split
        · exact handled_pushIndexOutcome hP _ _ _ _
        · exact hP.andThen (handled_readFlatScalar hP _ _ _ _) fun _ =>
            handled_pushIndexOutcome hP _ _ _ _
    next houtcome =>
      rcases h with hT | h
      · split
        · exact hP.raise (hT _)
        · exact hP.andThen (handled_readFlatScalar hP _ _ _ _) fun _ => handled_push hP _
      · exact absurd h.1 houtcome

/-- An indexed read that reports a bounds outcome is of elements that occupy bytes. -/
theorem handled_execGetIndex {elem : ArrayElem}
    (h : (∀ e, T e) ∨ elem.hasBoundsOutcome ∧ (Op.getIndex elem).Sized env) :
    P (execGetIndex env elem) := by
  refine hP.andThen (handled_pop hP) fun index => hP.andThen (handled_pop hP) fun container => ?_
  split
  · cases elem with
    | flat kind => exact handled_halt hP rfl
    | flatNested size variant => exact handled_halt hP rfl
    | boxed => exact handled_execIndexBoxed hP _ _
  · cases elem with
    | flat kind => exact handled_execIndexFlat hP (h.imp_right fun h => ⟨h.1, h.2 h.1⟩) _ _
    | flatNested size variant => exact handled_execIndexNested hP _ _ _ _
    | boxed => exact handled_halt hP rfl
  · exact handled_type hP _

theorem handled_execLen : P (execLen env) := by
  refine hP.andThen (handled_pop hP) fun v => ?_
  split
  · exact handled_push hP _
  · exact handled_push hP _
  · exact handled_halt hP rfl
  · exact handled_halt hP rfl
  · refine hP.andThen hP.look fun s => ?_
    split
    · exact handled_push hP _
    · exact handled_type hP _
    · exact handled_type hP _

theorem handled_execIsStruct (chunkIdx t : ℕ) : P (execIsStruct env chunkIdx t) := by
  unfold execIsStruct
  split
  · exact handled_halt hP rfl
  · refine hP.andThen (handled_peekOperand hP) fun v => ?_
    split
    · exact handled_push hP _
    · exact handled_halt hP rfl
    · exact handled_push hP _

theorem handled_execIsEnum (chunkIdx e v d : ℕ) : P (execIsEnum env chunkIdx e v d) := by
  unfold execIsEnum
  split
  · dsimp only
    refine hP.andThen (handled_peekOperand hP) fun v => ?_
    split
    · exact handled_push hP _
    · refine hP.andThen hP.look fun s => ?_
      split
      · exact handled_push hP _
      · refine hP.andThen (handled_ofScalar hP _) fun w => ?_
        split
        · exact handled_push hP _
        · exact handled_push hP _
    · exact handled_push hP _
    · exact handled_push hP _
  · exact handled_halt hP rfl

/-! ## Natives and dispatch -/

theorem handled_admitHostValue (region : String) (v : Value F) :
    P (admitHostValue env region v) :=
  hP.allocate _ (.intoArenaCanonical _)

/-- What becomes of the result of a native. -/
theorem handled_nativeResult (n : ℕ) (r : Except HostError (Value F)) :
    P (match r with
      | .ok v => do
        let v ← admitHostValue env "native result" v
        let v ← inRegistry v.internOpaqueArcs
        if nativeReifies n then
          modify fun s => { s with reifiedHostError := none }
          push env v
          push env (.int 0)
        else push env v
      | .error e => do
        if nativeReifies n && e.softHost then
          modify fun s => { s with reifiedHostError := some e }
          push env (intOf env (e.code.getD (-1)))
          push env (intOf env 1)
        else throw (.host e) : Exec F Unit) := by
  split
  · refine hP.andThen (handled_admitHostValue hP _ _) fun v =>
      hP.andThen (handled_inRegistry hP _) fun v => ?_
    split
    · exact hP.andThen (hP.change fun _ => ⟨rfl, rfl⟩) fun _ =>
        hP.andThen (handled_push hP _) fun _ => handled_push hP _
    · exact handled_push hP _
  · split
    · exact hP.andThen (hP.change fun _ => ⟨rfl, rfl⟩) fun _ =>
        hP.andThen (handled_push hP _) fun _ => handled_push hP _
    · exact hP.raise (hP.fault (VmError.quiet_host _))

theorem handled_execNative (idx n : ℕ) : P (execNative env idx n) := by
  refine hP.andThen (handled_drain hP _) fun drained => hP.andThen hP.look fun s => ?_
  dsimp only
  split
  · exact handled_halt hP rfl
  split
  · exact handled_halt hP rfl
  next entry hentry => exact hP.call hentry _ _ (handled_nativeResult hP n)

theorem handled_popLimbs (n bound : ℕ) : P (popLimbs n bound : Exec F ℕ) := by
  induction n generalizing bound with
  | zero => exact hP.value _
  | succ n ih =>
    refine hP.andThen (handled_pop hP) fun v => ?_
    split
    · exact ih _
    · exact handled_type hP _

theorem handled_execTrap (hT : ∀ e, T e) (kind : ℕ) : P (execTrap env kind) := by
  unfold execTrap
  cases TrapKind.fromCode kind with
  | none => exact handled_halt hP rfl
  | some kind =>
    cases kind with
    | indexOutOfBounds =>
      refine hP.andThen (handled_popLimbs hP 4 0) fun bound => hP.andThen (handled_pop hP) fun v =>
        ?_
      split
      · exact hP.raise (hT _)
      · exact handled_type hP _
    | hostError =>
      refine hP.andThen (handled_pop hP) fun v => ?_
      split
      · refine hP.andThen hP.look fun s => ?_
        split
        · split
          · split
            · exact hP.raise (hT _)
            · exact hP.raise (hT _)
          · split
            · exact hP.raise (hT _)
            · exact hP.raise (hT _)
        · exact hP.raise (hT _)
      · exact handled_type hP _
    | _ => exact hP.raise (hT _)

/-- **What is handled holds of every instruction** that does not steer the frame. -/
theorem handled_execOp {op : Op} (h : (∀ e, T e) ∨ op.Trapless env)
    (hwrite : op.Writes → ∀ slot v, P (writeDataSlot env slot v)) (chunkIdx base : ℕ) :
    P (execOp env chunkIdx base op) := by
  cases op with
  | const idx => exact handled_push hP _
  | getLocal slot => exact hP.andThen (handled_readLocal hP _) fun _ => handled_push hP _
  | setLocal slot => exact hP.andThen (handled_pop hP) fun v => handled_writeLocal hP _ v
  | getData slot => exact handled_execGetData hP slot
  | setData slot => exact handled_execSetData hP (hwrite trivial) slot
  | getDataIndexed b len => exact handled_execGetDataIndexed hP b len
  | setDataIndexed b len => exact handled_execSetDataIndexed hP (hwrite trivial) b len
  | boundsCheck bound => exact handled_execBoundsCheck hP bound
  | add => exact handled_binaryArith hP _ _ _
  | sub => exact handled_binaryArith hP _ _ _
  | mul => exact handled_binaryArith hP _ _ _
  | neg => exact handled_execNeg hP
  | div => exact handled_execDiv hP 0
  | mod => exact handled_execMod hP true
  | cmpEq => exact handled_execCmpEq hP false
  | cmpNe => exact handled_execCmpEq hP true
  | cmpLt => exact handled_compareOp hP _
  | cmpGt => exact handled_compareOp hP _
  | cmpLe => exact handled_compareOp hP _
  | cmpGe => exact handled_compareOp hP _
  | not => exact handled_execNot hP
  | dup => exact hP.andThen (handled_peekOperand hP) fun v => handled_push hP v
  | newComposite operand => exact handled_execNewComposite hP chunkIdx operand
  | getField field =>
    refine handled_execGetField hP (h.imp_right ?_)
    rintro h i rfl
    exact h
  | getIndex elem => exact handled_execGetIndex hP h
  | getTupleField field =>
    refine handled_execGetTupleField hP (h.imp_right ?_)
    rintro h i rfl
    exact h
  | getEnumField field =>
    refine handled_execGetEnumField hP (h.imp_right ?_)
    rintro h i rfl
    exact h
  | len => exact handled_execLen hP
  | isEnum e v d => exact handled_execIsEnum hP chunkIdx e v d
  | isStruct t => exact handled_execIsStruct hP chunkIdx t
  | intToFloat => exact handled_execIntToFloat hP
  | floatToInt => exact handled_execFloatToInt hP
  | wordToByte => exact handled_execWordToByte hP
  | byteToWord => exact handled_execByteToWord hP
  | wordToFixed n => exact handled_execWordToFixed hP n
  | fixedToWord n => exact handled_execFixedToWord hP n
  | fixedMul n => exact handled_execFixedMul hP n
  | fixedDiv n => exact handled_execFixedDiv hP n
  | trap kind =>
    rcases h with hT | h
    · exact handled_execTrap hP hT kind
    · exact h.elim
  | checkedAdd => exact handled_checkedBinary hP _ _ _
  | checkedSub => exact handled_checkedBinary hP _ _ _
  | checkedMul n => exact handled_execCheckedMul hP n
  | checkedNeg => exact handled_execCheckedNeg hP
  | checkedDiv n => exact handled_execDiv hP n
  | checkedMod => exact handled_execMod hP false
  | pushImmediate n => exact handled_execPushImmediate hP n
  | popN n =>
    exact hP.andThen hP.look fun _ =>
      hP.andThen (handled_operandStart hP n) fun _ => handled_setStack hP _
  | bitAnd => exact handled_execBitwise hP _ _
  | bitOr => exact handled_execBitwise hP _ _
  | bitXor => exact handled_execBitwise hP _ _
  | shl => exact handled_execShift hP "Shl" fun v k => v * 2 ^ k
  | shr => exact handled_execShift hP _ _
  | callVerifiedNative idx n => exact handled_execNative hP idx n
  | callExternalNative idx n => exact handled_execNative hP idx n
  | _ => exact hP.value ()

/-! ## Frames and entry from the host -/

theorem handled_setIp (ip : ℕ) : P (setIp ip : Exec F Unit) :=
  hP.change fun s => by cases s.frames <;> exact ⟨rfl, rfl⟩

theorem handled_popBool (fault : String) : P (popBool fault : Exec F Bool) := by
  refine hP.andThen (handled_pop hP) fun v => ?_
  split
  · exact hP.value _
  · exact handled_type hP _

theorem handled_pushFrame (f : CallFrame) : P (pushFrame env f) := by
  refine hP.andThen hP.look fun s => ?_
  split
  · exact hP.change fun _ => ⟨rfl, rfl⟩
  · exact handled_halt hP rfl

theorem handled_deliver (result : Value F) : P (deliver env result) := by
  refine hP.andThen hP.look fun s => ?_
  split
  · exact hP.andThen (hP.change fun _ => ⟨rfl, rfl⟩) fun _ =>
      hP.andThen (hP.andThen hP.look fun _ => hP.value _) fun _ => hP.value _
  · exact hP.andThen (handled_push hP _) fun _ => hP.value _

theorem handled_endOfChunk : P (endOfChunk env) :=
  hP.andThen hP.look fun _ => hP.andThen hP.look fun _ =>
    hP.andThen (handled_setStack hP _) fun _ =>
    hP.andThen (hP.change fun _ => ⟨rfl, rfl⟩) fun _ => handled_deliver hP _

theorem handled_execReset (f : CallFrame) : P (execReset env f) := by
  refine hP.andThen hP.look fun s => ?_
  dsimp only
  split
  · exact handled_halt hP rfl
  · refine hP.andThen (hP.reset _) fun _ => ?_
    split
    · exact handled_halt hP rfl
    · exact hP.andThen (handled_setIp hP _) fun _ =>
        hP.andThen (hP.change fun _ => ⟨rfl, rfl⟩) fun _ => hP.value _

theorem handled_execCall (idx n : ℕ) : P (execCall env idx n) := by
  unfold execCall
  split
  · exact handled_halt hP rfl
  · refine hP.andThen (handled_operandStart hP n) fun start => ?_
    split
    · exact handled_halt hP rfl
    · exact hP.andThen (handled_pushAll hP _) fun _ => hP.andThen (handled_pushFrame hP _) fun _ =>
        hP.value _

theorem handled_execReturn (f : CallFrame) : P (execReturn env f) :=
  hP.andThen (handled_pop hP) fun _ => hP.andThen (hP.change fun _ => ⟨rfl, rfl⟩) fun _ =>
    hP.andThen hP.look fun _ =>
    hP.andThen (handled_setStack hP _) fun _ => handled_deliver hP _

theorem handled_execYield : P (execYield : Exec F (Outcome F)) := by
  refine hP.andThen (handled_pop hP) fun v => hP.andThen hP.look fun s => ?_
  split
  · exact handled_type hP _
  · exact hP.andThen (hP.change fun _ => ⟨rfl, rfl⟩) fun _ =>
      hP.andThen (hP.andThen hP.look fun _ => hP.value _) fun _ => hP.value _

/-- What is handled holds of every instruction that steers the frame. -/
theorem handled_execInstr_of_not_plain {op : Op} (hplain : ¬ op.Plain) (f : CallFrame) :
    P (execInstr env f op) := by
  cases op with
  | ifOp target =>
    refine hP.andThen (handled_popBool hP _) fun b => ?_
    split
    · exact hP.value _
    · exact hP.andThen (handled_setIp hP _) fun _ => hP.value _
  | elseOp target => exact hP.andThen (handled_setIp hP _) fun _ => hP.value _
  | endIf => exact hP.value _
  | loop target => exact hP.value _
  | endLoop target => exact hP.andThen (handled_setIp hP _) fun _ => hP.value _
  | «break» target => exact hP.andThen (handled_setIp hP _) fun _ => hP.value _
  | breakIf target =>
    refine hP.andThen (handled_popBool hP _) fun b => ?_
    split
    · exact hP.andThen (handled_setIp hP _) fun _ => hP.value _
    · exact hP.value _
  | stream => exact hP.value _
  | reset => exact handled_execReset hP f
  | call idx n => exact handled_execCall hP idx n
  | «return» => exact handled_execReturn hP f
  | yield => exact handled_execYield hP
  | _ => exact absurd trivial hplain

/-- **What is handled holds of every instruction.** -/
theorem handled_execInstr {op : Op} (h : (∀ e, T e) ∨ op.Trapless env)
    (hwrite : op.Writes → ∀ slot v, P (writeDataSlot env slot v)) (f : CallFrame) :
    P (execInstr env f op) := by
  by_cases hplain : op.Plain
  · rw [execInstr_plain hplain]
    exact hP.andThen (handled_execOp hP h hwrite _ _) fun _ => hP.value _
  · exact handled_execInstr_of_not_plain hP hplain f

/-- **What is handled holds of a step**, when the instructions of the module are handled. -/
theorem handled_step
    (h : (∀ e, T e) ∨ ∀ (c i : ℕ) (op : Op), (env.ops c)[i]? = some op → op.Trapless env)
    (hwrite : ∀ slot v, P (writeDataSlot env slot v)) : P (step env) := by
  refine hP.andThen hP.look fun s => ?_
  split
  · exact handled_halt hP rfl
  · split
    · exact handled_endOfChunk hP
    next hop =>
      exact hP.andThen (handled_setIp hP _) fun _ =>
        handled_execInstr hP (h.imp_right fun h => h _ _ _ hop) (fun _ => hwrite) _

theorem handled_enterShared (shared : List UInt8) : P (enterShared env shared) := by
  unfold enterShared
  split
  · exact hP.raise (hP.fault (VmError.quiet_of_softHost rfl))
  · exact hP.change fun _ => ⟨rfl, rfl⟩

theorem handled_pushArgument (c i : ℕ) (arg : Value F) : P (pushArgument env c i arg) := by
  refine hP.andThen (handled_admitHostValue hP _ _) fun v => ?_
  dsimp only
  split
  · exact hP.andThen (handled_inRegistry hP _) fun _ => handled_push hP _
  · exact handled_type hP _

theorem handled_pushArguments (c i : ℕ) (args : List (Value F)) :
    P (pushArguments env c i args) := by
  induction args generalizing i with
  | nil => exact hP.value ()
  | cons arg args ih => exact hP.andThen (handled_pushArgument hP c i arg) fun _ => ih _

/-- **What is handled holds of the host's calls.** -/
theorem handled_callFunction (c : ℕ) (shared : List UInt8) (args : List (Value F)) :
    P (callFunction env c shared args) := by
  refine hP.andThen (handled_enterShared hP _) fun _ => ?_
  split
  · exact handled_halt hP rfl
  split
  · exact handled_halt hP rfl
  split
  · exact handled_type hP _
  split
  · exact handled_type hP _
  refine hP.andThen hP.look fun s => hP.andThen (handled_pushArguments hP _ _ _) fun _ => ?_
  split
  · exact handled_halt hP rfl
  · exact hP.andThen (handled_pushAll hP _) fun _ => hP.andThen (handled_pushFrame hP _) fun _ =>
      hP.change fun _ => ⟨rfl, rfl⟩

theorem handled_writeStreamParameter (input : Value F) : P (writeStreamParameter env input) := by
  refine hP.andThen hP.look fun s => ?_
  split
  · exact hP.value _
  split
  · exact hP.value _
  split
  · split
    · exact handled_writeLocal hP _ _
    · exact handled_type hP _
  · exact hP.value _

/-- **What is handled holds of the host's resumes.** -/
theorem handled_resume (shared : List UInt8) (input : Value F) :
    P (resume env shared input) := by
  refine hP.andThen (handled_enterShared hP _) fun _ => hP.andThen hP.look fun s => ?_
  dsimp only
  split
  · exact handled_halt hP rfl
  refine hP.andThen (handled_admitHostValue hP _ _) fun v => ?_
  split
  · exact handled_type hP _
  refine hP.andThen (handled_inRegistry hP _) fun v =>
    hP.andThen (handled_writeStreamParameter hP v) fun _ => ?_
  split
  · exact hP.value _
  · exact handled_push hP _

end

end Keleusma
