import Keleusma.Runtime.Composites

/-!
# The instruction handlers

What each instruction does that neither transfers control nor changes the call frames. `execOp`
dispatches to the handlers; the instruction pointer has already been advanced when it runs.

Every handler takes the operands its entry in the depth table says off the stack, leaves as many
values in their place, and touches nothing below them: neither the rest of the stack nor the call
frames (`effect_execOp`). The one exception is `SetLocal`, which writes its local slot
(`execOp_setLocal`).
-/

namespace Keleusma

open StackEffect

variable {F α : Type} {env : Env F} {low p q : ℕ}

/-! ## Natives and traps -/

section

variable (env)

/-- Give a host's value the form the machine works on. -/
def admitHostValue (region : String) (v : Value F) : Exec F (Value F) :=
  inArena region
    (intoArenaCanonical env.fo env.widths (v.correctNativeEnumHints env.module.enumLayouts))

/-- A native call. The reifying form reports a host failure on the stack as a code and a flag. -/
def execNative (idx argCount : ℕ) : Exec F Unit := do
  let drained ← drain (nativeArgCount argCount)
  let args := drained.map (Value.materialiseOpaqueRefs (← get).ephemeralOpaques)
  match env.module.nativeNames[idx]? with
  | none => throw (.invalidBytecode "invalid native index")
  | some name =>
    match env.natives name with
    | none => throw (.invalidBytecode ("unregistered native: " ++ name))
    | some entry =>
      let s ← get
      let (result, arena) := entry.func s.nativeCalls s.arena s.ephemeralOpaques args
      modify fun s => { s with arena, nativeCalls := s.nativeCalls + 1 }
      match result with
      | .ok v =>
        let v ← admitHostValue env "native result" v
        let v ← inRegistry v.internOpaqueArcs
        if nativeReifies argCount then
          modify fun s => { s with reifiedHostError := none }
          push env v
          push env (.int 0)
        else push env v
      | .error e =>
        if nativeReifies argCount && e.softHost then
          modify fun s => { s with reifiedHostError := some e }
          push env (intOf env (e.code.getD (-1)))
          push env (intOf env 1)
        else throw (.host e)

/-- Pop the four limbs of a bound, highest first. -/
def popLimbs : ℕ → ℕ → Exec F ℕ
  | 0, bound => return bound
  | n + 1, bound => do
    match ← pop with
    | .int limb => popLimbs n (bound * 256 + (limb % 256).toNat)
    | _ => throw (.typeError "bounds trap expects Word limbs")

/-- `Trap`: the error of the trap's kind, never a result. -/
def execTrap (kindCode : ℕ) : Exec F Unit := do
  match TrapKind.fromCode kindCode with
  | some .refinementFailed => throw .refinementFailed
  | some .noMatchingHead => throw .noMatchingHead
  | some .noMatchingArm => throw .noMatchingArm
  | some .checkedArithNoArm => throw .checkedArithNoArm
  | some .enumVariantUnmapped => throw .enumVariantUnmapped
  | some .zeroDivisor => throw .divisionByZero
  | some .assertionFailed => throw .assertionFailed
  | some .loopLimitExceeded => throw .loopLimitExceeded
  | some .indexOutOfBounds =>
    let bound ← popLimbs 4 0
    match ← pop with
    | .int index => throw (.indexOutOfBounds index bound)
    | _ => throw (.typeError "bounds trap expects a Word index")
  | some .hostError =>
    match ← pop with
    | .int code =>
      let unhandled : VmError := .nativeErrorCode code "unhandled host error"
      match (← get).reifiedHostError with
      | some e =>
        match e.code with
        | some c =>
          if Word.wrap env.runtimeBitsLog2 c = code then throw (.host e) else throw unhandled
        | none => if code = -1 then throw (.host e) else throw unhandled
      | none => throw unhandled
    | _ => throw (.typeError "host-error trap expects a Word code")
  | none => throw (.invalidBytecode "Op::Trap carried an unknown trap-kind code")

end

theorem effect_admitHostValue {region : String} (hregion : region ≠ "operand stack")
    (v : Value F) : Eff env low 0 0 (admitHostValue env region v) :=
  effect_inArena hregion _

theorem effect_execNative (idx n : ℕ) :
    Eff env low (nativeArgCount n) (nativeResultCount n) (execNative env idx n) := by
  refine (effect_drain _).bind 0 (nativeResultCount n) rfl rfl (.inl rfl) fun drained => ?_
  refine .get_bind (fun _ => rfl) fun s => ?_
  dsimp only
  split
  · exact .throw _ nofun nofun
  split
  · exact .throw _ nofun nofun
  refine .get_bind (fun _ => rfl) fun s => .bind_neutral (.modify _ (fun _ => rfl) (fun _ =>
    rfl) fun _ => rfl) fun _ => ?_
  split
  · refine (effect_admitHostValue (by decide) _).bind_neutral fun v =>
      (effect_inRegistry _).bind_neutral fun v => ?_
    unfold nativeResultCount
    split
    · exact .bind_neutral (.modify _ (fun _ => rfl) (fun _ => rfl) fun _ => rfl) fun _ =>
        (effect_push _).bind 0 1 rfl rfl (.inr (Nat.zero_le _)) fun _ => effect_push _
    · exact effect_push _
  · split
    next h =>
      rw [nativeResultCount, if_pos (Bool.and_eq_true_iff.mp h).1]
      exact .bind_neutral (.modify _ (fun _ => rfl) (fun _ => rfl) fun _ => rfl) fun _ =>
        (effect_push _).bind 0 1 rfl rfl (.inr (Nat.zero_le _)) fun _ => effect_push _
    · exact .throw _ nofun nofun

theorem effect_popLimbs (n bound : ℕ) : Eff env low n 0 (popLimbs n bound : Exec F ℕ) := by
  induction n generalizing bound with
  | zero => exact .pure _
  | succ n ih =>
    refine effect_pop.bind n 0 (by omega) (by omega) (.inl rfl) fun v => ?_
    split
    · exact ih _
    · exact .throw _ nofun nofun

/-- The operands a trap of the kind pops. -/
def trapPops (kindCode : ℕ) : ℕ :=
  if kindCode = TrapKind.indexOutOfBounds.code then 5
  else if kindCode = TrapKind.hostError.code then 1
  else 0

/-- A trap pops its operands and always fails, so it has every result. -/
theorem effect_execTrap (kindCode q : ℕ) :
    Eff env low (trapPops kindCode) q (execTrap env kindCode) := by
  unfold execTrap
  cases hk : TrapKind.fromCode kindCode with
  | none => exact .throw _ nofun nofun
  | some kind =>
    obtain rfl := TrapKind.fromCode_eq_some.mp hk
    cases kind with
    | indexOutOfBounds =>
      refine (effect_popLimbs 4 0).bind 1 q rfl (by omega) (.inl rfl) fun bound => ?_
      refine effect_pop.bind 0 q rfl rfl (.inl rfl) fun v => ?_
      split
      · exact .throw _ nofun nofun
      · exact .throw _ nofun nofun
    | hostError =>
      refine effect_pop.bind 0 q rfl (by omega) (.inl rfl) fun v => ?_
      split
      · refine .get_bind (fun _ => rfl) fun s => ?_
        split
        · split
          · split
            · exact .throw _ nofun nofun
            · exact .throw _ nofun nofun
          · split
            · exact .throw _ nofun nofun
            · exact .throw _ nofun nofun
        · exact .throw _ nofun nofun
      · exact .throw _ nofun nofun
    | _ => exact .throw _ nofun nofun

/-- A trap never returns. -/
theorem execTrap_ne_ok {kindCode : ℕ} {s s' : Vm F} {u : Unit} :
    execTrap env kindCode s ≠ .ok (u, s') := by
  intro h
  have h₀ := ((effect_execTrap kindCode 0 : Eff env 0 _ _ _).ok s u s' h).2.1
  have h₁ := ((effect_execTrap kindCode 1 : Eff env 0 _ _ _).ok s u s' h).2.1
  omega

/-! ## Dispatch -/

section

variable (env)

/-- The instructions that neither transfer control nor change the frames. -/
def execOp (chunkIdx base : ℕ) : Op → Exec F Unit
  | .const idx => push env (env.chunkConst chunkIdx idx)
  | .getLocal slot => do push env (← readLocal (base + slot))
  | .setLocal slot => do writeLocal (base + slot) (← pop)
  | .getData slot => execGetData env slot
  | .setData slot => execSetData env slot
  | .getDataIndexed b len => execGetDataIndexed env b len
  | .setDataIndexed b len => execSetDataIndexed env b len
  | .boundsCheck bound => execBoundsCheck env bound
  | .add => binaryArith env (· + ·) env.fo.add cannotAdd
  | .sub => binaryArith env (· - ·) env.fo.sub typeMismatch
  | .mul => binaryArith env (· * ·) env.fo.mul typeMismatch
  | .neg => execNeg env
  | .div => execDiv env 0
  | .mod => execMod env true
  | .cmpEq => execCmpEq env false
  | .cmpNe => execCmpEq env true
  | .cmpLt => compareOp env (·.isLT)
  | .cmpGt => compareOp env (·.isGT)
  | .cmpLe => compareOp env (·.isLE)
  | .cmpGe => compareOp env (·.isGE)
  | .not => execNot env
  | .dup => do push env (← peekOperand)
  | .newComposite operand => execNewComposite env chunkIdx operand
  | .getField field => execGetField env chunkIdx field
  | .getIndex elem => execGetIndex env elem
  | .getTupleField field => execGetTupleField env field
  | .getEnumField field => execGetEnumField env field
  | .len => execLen env
  | .isEnum e v d => execIsEnum env chunkIdx e v d
  | .isStruct t => execIsStruct env chunkIdx t
  | .intToFloat => execIntToFloat env
  | .floatToInt => execFloatToInt env
  | .wordToByte => execWordToByte env
  | .byteToWord => execByteToWord env
  | .wordToFixed n => execWordToFixed env n
  | .fixedToWord n => execFixedToWord env n
  | .fixedMul n => execFixedMul env n
  | .fixedDiv n => execFixedDiv env n
  | .trap kind => execTrap env kind
  | .checkedAdd => checkedBinary env "CheckedAdd" (· + ·) env.fo.add
  | .checkedSub => checkedBinary env "CheckedSub" (· - ·) env.fo.sub
  | .checkedMul n => execCheckedMul env n
  | .checkedNeg => execCheckedNeg env
  | .checkedDiv n => execDiv env n
  | .checkedMod => execMod env false
  | .pushImmediate n => execPushImmediate env n
  | .popN n => do setStack ((← get).stack.take (← operandStart n))
  | .bitAnd => execBitwise env "BitAnd" (· &&& ·)
  | .bitOr => execBitwise env "BitOr" (· ||| ·)
  | .bitXor => execBitwise env "BitXor" (· ^^^ ·)
  | .shl => execShift env "Shl" fun v k => v * 2 ^ k
  | .shr => execShift env "Shr" Word.shiftRight
  | .callVerifiedNative idx n | .callExternalNative idx n => execNative env idx n
  -- The remaining instructions steer the frame and are executed by the step function.
  | .ifOp _ | .elseOp _ | .endIf | .loop _ | .endLoop _ | .break _ | .breakIf _ | .stream | .reset
  | .call _ _ | .return | .yield => return

end

/-- The instructions that `execOp` executes: those that do not steer the frame. -/
def Op.Plain : Op → Prop
  | .ifOp _ | .elseOp _ | .endIf | .loop _ | .endLoop _ | .break _ | .breakIf _ | .stream | .reset
  | .call _ _ | .return | .yield => False
  | _ => True

/-- The operands that an instruction leaves: those of the table, but for an indexed read of an
element that occupies no bytes. -/
def Op.results (env : Env F) : Op → ℕ
  | .getIndex elem => elem.results env
  | op => opProduces op

/-- The elements of an indexed read that reports a bounds outcome occupy bytes. -/
def Op.Sized (env : Env F) : Op → Prop
  | .getIndex (.flat kind) => (ArrayElem.flat kind).hasBoundsOutcome → env.widths.size kind ≠ 0
  | _ => True

theorem Op.Sized.results_eq {op : Op} (h : op.Sized env) : op.results env = opProduces op := by
  cases op with
  | getIndex elem =>
    rw [opProduces_getIndex]
    cases elem with
    | flat kind =>
      simp only [Op.results, ArrayElem.results]
      by_cases ho : (ArrayElem.flat kind).hasBoundsOutcome
      · rw [if_neg (h ho)]
      · rw [if_neg ho, ite_self]
    | flatNested size variant => rfl
    | boxed => rfl
  | _ => rfl

theorem effect_popN (n : ℕ) :
    Eff env low n 0 (do setStack ((← get).stack.take (← operandStart n)) : Exec F Unit) where
  ok s _ s' h := by
    change (operandStart n >>= fun k => setStack (s.stack.take k)) s = _ at h
    simp only [bind, StateT.bind, operandStart_apply] at h
    split at h
    next hn =>
      cases h
      exact ⟨hn, by simp, by simp [List.take_take], rfl⟩
    · cases h
  underflow s e h _ := by
    change (operandStart n >>= fun k => setStack (s.stack.take k)) s = _ at h
    simp only [bind, StateT.bind, operandStart_apply] at h
    split at h
    · cases h
    next hn => exact Nat.lt_of_not_le hn
  reads s t _ s' high hhigh hst h := by
    have hlen : s.stack.length = t.stack.length := hst.length
    change (operandStart n >>= fun k => setStack (s.stack.take k)) s = _ at h
    change ∃ t', (operandStart n >>= fun k => setStack (t.stack.take k)) t = .ok (_, t') ∧ _
    simp only [bind, StateT.bind, operandStart_apply, ← hlen] at h ⊢
    split at h
    next hn =>
      cases h
      rw [if_pos hn]
      exact ⟨_, rfl, agree_take hst _⟩
    · cases h
  full s e h he := by
    change (operandStart n >>= fun k => setStack (s.stack.take k)) s = _ at h
    simp only [bind, StateT.bind, operandStart_apply] at h
    subst he
    split at h <;> cases h

/-- Where the local slots end that an instruction reads, when the frame's begin at `base`. -/
def Op.reach (base : ℕ) : Op → ℕ
  | .getLocal slot => base + slot + 1
  | _ => 0

/-- **The handlers follow the depth table.** An instruction takes the operands it requires and
leaves what it produces, and touches nothing below. Of the stack below it looks at the local slot
that it reads, and at nothing else. -/
theorem effect_execOp (chunkIdx base : ℕ) (op : Op) (hplain : op.Plain)
    (hset : ∀ slot, op ≠ .setLocal slot) :
    Eff env (op.reach base) (opRequires op) (op.results env) (execOp env chunkIdx base op) := by
  cases op with
  | const idx => exact effect_push _
  | getLocal slot =>
    exact (effect_readLocal (Nat.lt_succ_self _)).bind_neutral fun _ => effect_push _
  | setLocal slot => exact absurd rfl (hset slot)
  | getData slot => exact effect_execGetData slot
  | setData slot => exact effect_execSetData slot
  | getDataIndexed b len => exact effect_execGetDataIndexed b len
  | setDataIndexed b len => exact effect_execSetDataIndexed b len
  | boundsCheck bound => exact effect_execBoundsCheck bound
  | add => exact effect_binaryArith _ _ _
  | sub => exact effect_binaryArith _ _ _
  | mul => exact effect_binaryArith _ _ _
  | neg => exact effect_execNeg
  | div => exact effect_execDiv 0
  | mod => exact effect_execMod true
  | cmpEq => exact effect_execCmpEq false
  | cmpNe => exact effect_execCmpEq true
  | cmpLt => exact effect_compareOp _
  | cmpGt => exact effect_compareOp _
  | cmpLe => exact effect_compareOp _
  | cmpGe => exact effect_compareOp _
  | not => exact effect_execNot
  | dup => exact effect_peekOperand.bind 0 1 rfl rfl (.inr (Nat.zero_le _)) fun _ => effect_push _
  | newComposite operand =>
    show Eff env _ _ (opProduces _) _
    rw [opRequires_newComposite, opProduces_newComposite]
    exact effect_execNewComposite chunkIdx operand
  | getField field => exact effect_execGetField chunkIdx field
  | getIndex elem =>
    rw [opRequires_getIndex]
    exact effect_execGetIndex elem
  | getTupleField field => exact effect_execGetTupleField field
  | getEnumField field => exact effect_execGetEnumField field
  | len => exact effect_execLen
  | isEnum e v d => exact effect_execIsEnum chunkIdx e v d
  | isStruct t => exact effect_execIsStruct chunkIdx t
  | intToFloat => exact effect_execIntToFloat
  | floatToInt => exact effect_execFloatToInt
  | wordToByte => exact effect_execWordToByte
  | byteToWord => exact effect_execByteToWord
  | wordToFixed n => exact effect_execWordToFixed n
  | fixedToWord n => exact effect_execFixedToWord n
  | fixedMul n => exact effect_execFixedMul n
  | fixedDiv n => exact effect_execFixedDiv n
  | trap kind =>
    show Eff env _ _ (opProduces _) _
    rw [opRequires_trap, opProduces_trap]
    exact effect_execTrap kind 0
  | checkedAdd => exact effect_checkedBinary _ _ _
  | checkedSub => exact effect_checkedBinary _ _ _
  | checkedMul n => exact effect_execCheckedMul n
  | checkedNeg => exact effect_execCheckedNeg
  | checkedDiv n => exact effect_execDiv n
  | checkedMod => exact effect_execMod false
  | pushImmediate n => exact effect_execPushImmediate n
  | popN n =>
    show Eff env _ _ (opProduces _) _
    rw [opRequires_popN, opProduces_popN]
    exact effect_popN n
  | bitAnd => exact effect_execBitwise _ _
  | bitOr => exact effect_execBitwise _ _
  | bitXor => exact effect_execBitwise _ _
  | shl => exact effect_execShift "Shl" (fun v k => v * 2 ^ k)
  | shr => exact effect_execShift _ _
  | callVerifiedNative idx n =>
    show Eff env _ _ (opProduces _) _
    rw [opRequires_callVerifiedNative, opProduces_callVerifiedNative]
    exact effect_execNative idx n
  | callExternalNative idx n =>
    show Eff env _ _ (opProduces _) _
    rw [opRequires_callExternalNative, opProduces_callExternalNative]
    exact effect_execNative idx n
  | _ => exact hplain.elim

/-- `SetLocal` pops a value and writes it to its slot, and changes nothing else. -/
theorem execOp_setLocal {chunkIdx base slot : ℕ} {s s' : Vm F}
    (h : execOp env chunkIdx base (.setLocal slot) s = .ok ((), s')) :
    ∃ v, s.stack.getLast? = some v ∧ base + slot < s.stack.length - 1 ∧
      s' = { s with stack := s.stack.dropLast.set (base + slot) v } := by
  change (pop >>= writeLocal (base + slot)) s = _ at h
  cases hv : s.stack.getLast? with
  | none => simp [bind, StateT.bind, pop_apply, hv, Except.bind] at h
  | some v =>
    simp only [bind, StateT.bind, pop_apply, hv, Except.bind, writeLocal_apply,
      List.length_dropLast] at h
    split at h
    next hlt =>
      cases h
      exact ⟨v, rfl, hlt, rfl⟩
    · cases h

end Keleusma
