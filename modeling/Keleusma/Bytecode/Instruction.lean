import Mathlib.Algebra.Order.Ring.Int
import Mathlib.Data.Set.Basic
import Mathlib.Tactic.Common

/-!
# The instruction set

The opcodes of the virtual machine, with the operands they carry. Operands of the fixed-width
types `u8`, `u16` and `u32` are natural numbers; a check that depends on a width says so where
it is made. Control flow is block-structured: `If`, `Else` and `EndIf`, and `Loop` and `EndLoop`,
stand in the instruction sequence as delimiters and name each other's positions.
-/

namespace Keleusma

/-- The kind of a scalar field of a flat composite body. -/
inductive ScalarKind
  | unit | bool | byte | int | fixed | float | text | opaqueRef
  deriving DecidableEq, Repr

namespace ScalarKind

/-- The width of a field of the kind, under the word, float and address widths of the target. -/
def sizeInBytes (wordBytes floatBytes addrBytes : ℕ) : ScalarKind → ℕ
  | .unit => 0
  | .bool => 1
  | .byte => 1
  | .int => wordBytes
  | .fixed => wordBytes
  | .float => floatBytes
  | .text => 2 * wordBytes
  | .opaqueRef => addrBytes

/-- The number that stands for the kind in an operand. -/
def toTag : ScalarKind → ℕ
  | .unit => 0 | .bool => 1 | .byte => 2 | .int => 3
  | .fixed => 4 | .float => 5 | .text => 6 | .opaqueRef => 7

/-- The kind that a number stands for. -/
def fromTag : ℕ → Option ScalarKind
  | 0 => some .unit | 1 => some .bool | 2 => some .byte | 3 => some .int
  | 4 => some .fixed | 5 => some .float | 6 => some .text | 7 => some .opaqueRef
  | _ => none

@[simp] theorem fromTag_toTag (k : ScalarKind) : fromTag k.toTag = some k := by
  cases k <;> rfl

end ScalarKind

/-- The kind of a composite value. -/
inductive CompositeKind
  | tuple | array | struct | enum
  deriving DecidableEq, Repr

namespace CompositeKind

/-- The number that stands for the kind in an operand. -/
def toTag : CompositeKind → ℕ
  | .tuple => 0 | .array => 1 | .struct => 2 | .enum => 3

/-- The kind that a number stands for. -/
def fromTag : ℕ → Option CompositeKind
  | 0 => some .tuple | 1 => some .array | 2 => some .struct | 3 => some .enum
  | _ => none

@[simp] theorem fromTag_toTag (k : CompositeKind) : fromTag k.toTag = some k := by
  cases k <;> rfl

end CompositeKind

/-- The operand of `GetField`. -/
inductive StructField
  | flat (offset : ℕ) (kind : ScalarKind)
  | flatNested (offset size : ℕ) (variant : CompositeKind)
  | boxed (nameConst : ℕ)
  deriving DecidableEq, Repr

/-- The operand of `GetEnumField`. -/
inductive EnumField
  | flat (offset : ℕ) (kind : ScalarKind)
  | flatNested (offset size : ℕ) (variant : CompositeKind)
  | boxed (index : ℕ)
  deriving DecidableEq, Repr

/-- The operand of `GetTupleField`. -/
inductive TupleField
  | flat (offset : ℕ) (kind : ScalarKind)
  | flatNested (offset size : ℕ) (variant : CompositeKind)
  | boxed (index : ℕ)
  deriving DecidableEq, Repr

/-- The operand of `GetIndex`. -/
inductive ArrayElem
  | flat (kind : ScalarKind)
  | flatNested (size : ℕ) (variant : CompositeKind)
  | boxed
  deriving DecidableEq, Repr

/-- Whether the read reports a bounds outcome instead of faulting on an invalid index. -/
def ArrayElem.hasBoundsOutcome : ArrayElem → Bool
  | .flat .int | .flat .byte | .flatNested _ _ | .boxed => true
  | _ => false

/-- The operand of `NewComposite`: pack into a flat body, or build a boxed one. -/
inductive NewCompositeOperand
  | flat (kind : CompositeKind) (count byteSize : ℕ)
  | boxed (kind : CompositeKind) (count metaIdx : ℕ)
  deriving DecidableEq, Repr

namespace NewCompositeOperand

/-- The kind of the composite. -/
def kind : NewCompositeOperand → CompositeKind
  | flat k _ _ | boxed k _ _ => k

/-- The number of its operands. -/
def count : NewCompositeOperand → ℕ
  | flat _ c _ | boxed _ c _ => c

/-- The bytes the construction is accounted for. -/
def allocBytes : NewCompositeOperand → ℕ
  | flat _ _ byteSize => byteSize
  | boxed _ _ _ => 0

end NewCompositeOperand

/-- The opcodes. -/
inductive Op
  | const (idx : ℕ)
  | getLocal (slot : ℕ)
  | setLocal (slot : ℕ)
  | getData (slot : ℕ)
  | setData (slot : ℕ)
  | getDataIndexed (base len : ℕ)
  | setDataIndexed (base len : ℕ)
  | boundsCheck (bound : ℕ)
  | add | sub | mul | div | mod | neg
  | cmpEq | cmpNe | cmpLt | cmpGt | cmpLe | cmpGe
  | not
  | ifOp (target : ℕ)
  | elseOp (target : ℕ)
  | endIf
  | loop (target : ℕ)
  | endLoop (target : ℕ)
  | break (target : ℕ)
  | breakIf (target : ℕ)
  | stream | reset
  | call (idx argCount : ℕ)
  | return
  | yield
  | dup
  | newComposite (operand : NewCompositeOperand)
  | getField (field : StructField)
  | getIndex (elem : ArrayElem)
  | getTupleField (field : TupleField)
  | getEnumField (field : EnumField)
  | len
  | isEnum (enumConst varConst discConst : ℕ)
  | isStruct (typeConst : ℕ)
  | intToFloat | floatToInt | wordToByte | byteToWord
  | wordToFixed (fracBits : ℕ)
  | fixedToWord (fracBits : ℕ)
  | fixedMul (fracBits : ℕ)
  | fixedDiv (fracBits : ℕ)
  | trap (kindCode : ℕ)
  | checkedAdd | checkedSub
  | checkedMul (fracBits : ℕ)
  | checkedNeg
  | checkedDiv (fracBits : ℕ)
  | checkedMod
  | pushImmediate (value : ℕ)
  | popN (n : ℕ)
  | bitAnd | bitOr | bitXor | shl | shr
  | callVerifiedNative (idx argCount : ℕ)
  | callExternalNative (idx argCount : ℕ)
  deriving DecidableEq, Repr

/-- The cause of a `Trap`. -/
inductive TrapKind
  | refinementFailed | noMatchingHead | noMatchingArm | checkedArithNoArm | enumVariantUnmapped
  | zeroDivisor | assertionFailed | loopLimitExceeded | indexOutOfBounds | hostError
  deriving DecidableEq, Repr

namespace TrapKind

/-- The operand of the trap. -/
def code : TrapKind → ℕ
  | .refinementFailed => 0 | .noMatchingHead => 1 | .noMatchingArm => 2
  | .checkedArithNoArm => 3 | .enumVariantUnmapped => 4 | .zeroDivisor => 5
  | .assertionFailed => 6 | .loopLimitExceeded => 7 | .indexOutOfBounds => 8
  | .hostError => 9

/-- The trap that an operand stands for. -/
def fromCode : ℕ → Option TrapKind
  | 0 => some .refinementFailed | 1 => some .noMatchingHead | 2 => some .noMatchingArm
  | 3 => some .checkedArithNoArm | 4 => some .enumVariantUnmapped | 5 => some .zeroDivisor
  | 6 => some .assertionFailed | 7 => some .loopLimitExceeded | 8 => some .indexOutOfBounds
  | 9 => some .hostError
  | _ => none

theorem fromCode_eq_some {c : ℕ} {k : TrapKind} : fromCode c = some k ↔ c = k.code := by
  constructor
  · intro h
    unfold fromCode at h
    split at h <;> cases h <;> rfl
  · rintro rfl
    cases k <;> rfl

end TrapKind

/-! ## The argument count of a native call

The high bit of the argument-count byte is the error-reify flag, the low seven bits the count. -/

/-- The arguments a native call pops. -/
def nativeArgCount (n : ℕ) : ℕ := n &&& 0x7F

/-- Whether a native call reports a host failure on the stack. -/
def nativeReifies (n : ℕ) : Bool := n &&& 0x80 != 0

/-- The values a native call pushes. -/
def nativeResultCount (n : ℕ) : ℕ := if nativeReifies n then 2 else 1

end Keleusma
