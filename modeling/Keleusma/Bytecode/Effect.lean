import Keleusma.Bytecode.Program

/-!
# The tables of the instruction set

Three tables describe what an instruction does to the operand stack and what it costs. The peak
model, `stackGrowth` and `stackShrink`, says how far the stack rises above its depth while the
instruction runs and by how much it falls back; the worst-case-memory walk reads it. The true
model, `opDepthEffect`, gives the operands the instruction needs and its net effect; the
verifier's depth passes read it. The two agree on the net (`stackGrowth_sub_stackShrink`).
-/

namespace Keleusma

namespace Op

/-- How far the stack rises above its depth during the instruction. -/
def stackGrowth : Op → ℕ
  | getIndex elem => if elem.hasBoundsOutcome then 5 else 0
  | const _ | getLocal _ | getData _ | dup => 1
  | not | neg => 0
  | div | mod | fixedDiv _ | checkedAdd | checkedSub | checkedMul _ | checkedDiv _
  | checkedMod => 1
  | checkedNeg => 2
  | add | sub | mul | cmpEq | cmpNe | cmpLt | cmpGt | cmpLe | cmpGe => 0
  | setLocal _ | setData _ => 0
  | getDataIndexed _ _ => 5
  | setDataIndexed _ _ => 4
  | boundsCheck _ => 5
  | ifOp _ | breakIf _ => 0
  | elseOp _ | endIf | loop _ | endLoop _ | .break _ => 0
  | stream | reset => 0
  | .yield => 0
  | call _ _ => 1
  | .return => 0
  | newComposite _ => 1
  | getField _ | getTupleField _ | getEnumField _ | len => 0
  | isEnum _ _ _ | isStruct _ => 1
  | intToFloat | floatToInt | wordToByte | byteToWord | wordToFixed _ | fixedToWord _ => 0
  | fixedMul _ => 0
  | trap _ => 0
  | pushImmediate _ => 1
  | popN _ => 0
  | bitAnd | bitOr | bitXor | shl | shr => 0
  | callVerifiedNative _ n | callExternalNative _ n => if nativeReifies n then 2 else 1

/-- How far the stack falls back from its peak when the instruction has run. -/
def stackShrink : Op → ℕ
  | getIndex elem => if elem.hasBoundsOutcome then 0 else 1
  | const _ | getLocal _ | getData _ | dup => 0
  | not | neg => 0
  | div | mod | fixedDiv _ | checkedAdd | checkedSub | checkedMul _ | checkedNeg
  | checkedDiv _ | checkedMod => 0
  | add | sub | mul | cmpEq | cmpNe | cmpLt | cmpGt | cmpLe | cmpGe => 1
  | setLocal _ | setData _ => 1
  | getDataIndexed _ _ | setDataIndexed _ _ | boundsCheck _ => 0
  | ifOp _ | breakIf _ => 1
  | elseOp _ | endIf | loop _ | endLoop _ | .break _ => 0
  | stream | reset => 0
  | .yield => 0
  | call _ n => n
  | .return => 0
  | newComposite c => c.count
  | getField _ | getTupleField _ | getEnumField _ | len => 0
  | isEnum _ _ _ | isStruct _ => 0
  | intToFloat | floatToInt | wordToByte | byteToWord | wordToFixed _ | fixedToWord _ => 0
  | fixedMul _ => 1
  | trap kind =>
    if kind = TrapKind.indexOutOfBounds.code then 5
    else if kind = TrapKind.hostError.code then 1
    else 0
  | pushImmediate _ => 0
  | popN n => n
  | bitAnd | bitOr | bitXor | shl | shr => 1
  | callVerifiedNative _ n | callExternalNative _ n => nativeArgCount n

end Op

/-- The operand-depth effect of an instruction: the operands that must be present on entry, and
the net change of the depth. -/
def opDepthEffect : Op → Int × Int
  | .const _ | .getLocal _ | .getData _ | .pushImmediate _ => (0, 1)
  | .dup => (1, 1)
  | .setLocal _ | .setData _ => (1, -1)
  | .getDataIndexed _ _ => (2, 5)
  | .setDataIndexed _ _ => (2, 4)
  | .boundsCheck _ => (1, 5)
  | .getIndex elem => if elem.hasBoundsOutcome then (2, 5) else (2, -1)
  | .add | .sub | .mul | .cmpEq | .cmpNe | .cmpLt | .cmpGt | .cmpLe | .cmpGe
  | .bitAnd | .bitOr | .bitXor | .shl | .shr | .fixedMul _ => (2, -1)
  | .neg | .not | .intToFloat | .floatToInt | .wordToByte | .byteToWord | .wordToFixed _
  | .fixedToWord _ | .getField _ | .getTupleField _ | .getEnumField _ | .len => (1, 0)
  | .yield => (1, 0)
  | .isEnum _ _ _ | .isStruct _ => (1, 1)
  | .call _ n => (n, 1 - n)
  | .callVerifiedNative _ n | .callExternalNative _ n =>
    (nativeArgCount n, nativeResultCount n - nativeArgCount n)
  | .newComposite op => (op.count, 1 - op.count)
  | .div | .mod | .fixedDiv _ | .checkedAdd | .checkedSub | .checkedMod | .checkedMul _
  | .checkedDiv _ => (2, 1)
  | .checkedNeg => (1, 2)
  | .popN n => (n, -n)
  | .trap kind =>
    if kind = TrapKind.indexOutOfBounds.code then (5, -5)
    else if kind = TrapKind.hostError.code then (1, -1)
    else (0, 0)
  | .ifOp _ | .breakIf _ => (1, -1)
  | .elseOp _ | .endIf | .loop _ | .endLoop _ | .break _ | .stream | .reset | .return => (0, 0)

/-- The operands an instruction needs. -/
def opRequires (op : Op) : ℕ := (opDepthEffect op).1.toNat

/-- The operands an instruction leaves in place of those it needs. -/
def opProduces (op : Op) : ℕ := ((opDepthEffect op).1 + (opDepthEffect op).2).toNat

/-- The entry of a trap, which drops the words its kind takes. -/
theorem opDepthEffect_trap (kind : ℕ) : opDepthEffect (.trap kind) =
    if kind = TrapKind.indexOutOfBounds.code then (5, -5)
    else if kind = TrapKind.hostError.code then (1, -1)
    else (0, 0) := rfl

/-- No instruction leaves a negative number of operands. -/
theorem opDepthEffect_nonneg (op : Op) :
    0 ≤ (opDepthEffect op).1 ∧ 0 ≤ (opDepthEffect op).1 + (opDepthEffect op).2 := by
  cases op with
  | getIndex elem =>
    show 0 ≤ (if elem.hasBoundsOutcome then ((2 : Int), (5 : Int)) else (2, -1)).1 ∧ 0 ≤
      (if elem.hasBoundsOutcome then ((2 : Int), (5 : Int)) else (2, -1)).1 +
      (if elem.hasBoundsOutcome then ((2 : Int), (5 : Int)) else (2, -1)).2
    split_ifs <;> decide
  | trap kind =>
    rw [opDepthEffect_trap]
    split_ifs <;> decide
  | call _ n => exact ⟨Int.natCast_nonneg n, by show 0 ≤ (n : Int) + (1 - n); omega⟩
  | popN n => exact ⟨Int.natCast_nonneg n, by show 0 ≤ (n : Int) + -n; omega⟩
  | newComposite c =>
    exact ⟨Int.natCast_nonneg c.count, by show 0 ≤ (c.count : Int) + (1 - c.count); omega⟩
  | callVerifiedNative _ n | callExternalNative _ n =>
    refine ⟨Int.natCast_nonneg _, ?_⟩
    show 0 ≤ (nativeArgCount n : Int) + (nativeResultCount n - nativeArgCount n)
    omega
  | _ => exact ⟨Int.natCast_nonneg _, Int.natCast_nonneg _⟩

theorem opDepthEffect_eq (op : Op) :
    opDepthEffect op = ((opRequires op : Int), (opProduces op : Int) - opRequires op) := by
  obtain ⟨hr, hp⟩ := opDepthEffect_nonneg op
  refine Prod.ext (Int.toNat_of_nonneg hr).symm ?_
  show _ = ((Int.toNat _ : ℕ) : Int) - ((Int.toNat _ : ℕ) : Int)
  rw [Int.toNat_of_nonneg hr, Int.toNat_of_nonneg hp]
  omega

/-! The entries of the table that depend on an operand, as naturals. -/

@[simp] theorem opRequires_getIndex (elem : ArrayElem) : opRequires (.getIndex elem) = 2 := by
  show (if elem.hasBoundsOutcome then ((2 : Int), (5 : Int)) else (2, -1)).1.toNat = 2
  split_ifs <;> rfl

@[simp] theorem opProduces_getIndex (elem : ArrayElem) :
    opProduces (.getIndex elem) = if elem.hasBoundsOutcome then 7 else 1 := by
  show ((if elem.hasBoundsOutcome then ((2 : Int), (5 : Int)) else (2, -1)).1 +
    (if elem.hasBoundsOutcome then ((2 : Int), (5 : Int)) else (2, -1)).2).toNat = _
  split_ifs <;> rfl

@[simp] theorem opRequires_trap (kind : ℕ) : opRequires (.trap kind) =
    if kind = TrapKind.indexOutOfBounds.code then 5
    else if kind = TrapKind.hostError.code then 1
    else 0 := by
  rw [opRequires, opDepthEffect_trap]
  split_ifs <;> rfl

@[simp] theorem opProduces_trap (kind : ℕ) : opProduces (.trap kind) = 0 := by
  rw [opProduces, opDepthEffect_trap]
  split_ifs <;> rfl

@[simp] theorem opRequires_newComposite (operand : NewCompositeOperand) :
    opRequires (.newComposite operand) = operand.count := rfl

@[simp] theorem opProduces_newComposite (operand : NewCompositeOperand) :
    opProduces (.newComposite operand) = 1 := by
  show ((operand.count : Int) + (1 - operand.count)).toNat = 1
  omega

@[simp] theorem opRequires_call (idx n : ℕ) : opRequires (.call idx n) = n := rfl

@[simp] theorem opProduces_call (idx n : ℕ) : opProduces (.call idx n) = 1 := by
  show ((n : Int) + (1 - n)).toNat = 1
  omega

@[simp] theorem opRequires_popN (n : ℕ) : opRequires (.popN n) = n := rfl

@[simp] theorem opProduces_popN (n : ℕ) : opProduces (.popN n) = 0 := by
  show ((n : Int) + -n).toNat = 0
  omega

@[simp] theorem opRequires_callVerifiedNative (idx n : ℕ) :
    opRequires (.callVerifiedNative idx n) = nativeArgCount n := rfl

@[simp] theorem opProduces_callVerifiedNative (idx n : ℕ) :
    opProduces (.callVerifiedNative idx n) = nativeResultCount n := by
  show ((nativeArgCount n : Int) + (nativeResultCount n - nativeArgCount n)).toNat = _
  omega

@[simp] theorem opRequires_callExternalNative (idx n : ℕ) :
    opRequires (.callExternalNative idx n) = nativeArgCount n := rfl

@[simp] theorem opProduces_callExternalNative (idx n : ℕ) :
    opProduces (.callExternalNative idx n) = nativeResultCount n := by
  show ((nativeArgCount n : Int) + (nativeResultCount n - nativeArgCount n)).toNat = _
  omega

/-- **The peak model and the true model agree on the net effect of every instruction.** -/
theorem stackGrowth_sub_stackShrink (op : Op) :
    (op.stackGrowth : Int) - op.stackShrink = (opDepthEffect op).2 := by
  cases op with
  | getIndex elem =>
    show ((if elem.hasBoundsOutcome then 5 else 0 : ℕ) : Int) -
      (if elem.hasBoundsOutcome then 0 else 1 : ℕ) =
      (if elem.hasBoundsOutcome then ((2 : Int), (5 : Int)) else (2, -1)).2
    split_ifs <;> rfl
  | trap kind =>
    show (0 : Int) - (if kind = TrapKind.indexOutOfBounds.code then 5
      else if kind = TrapKind.hostError.code then 1 else 0 : ℕ) = _
    rw [opDepthEffect_trap]
    split_ifs <;> rfl
  | callVerifiedNative _ n | callExternalNative _ n =>
    show ((if nativeReifies n then 2 else 1 : ℕ) : Int) - nativeArgCount n =
      nativeResultCount n - nativeArgCount n
    rfl
  | popN n => exact Int.zero_sub n
  | _ => rfl

/-- The positions to which control may go from an instruction within its chunk. `Reset` goes on
after `Stream`, which the instruction itself does not say. -/
def Op.next : Op → ℕ → List ℕ
  | .ifOp t, ip | .breakIf t, ip => [ip + 1, t]
  | .elseOp t, _ | .endLoop t, _ | .break t, _ => [t]
  | .return, _ | .trap _, _ | .reset, _ => []
  | _, ip => [ip + 1]

end Keleusma
