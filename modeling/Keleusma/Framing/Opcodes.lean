import Keleusma.Bytecode.Instruction
import Keleusma.Logic.LittleEndian
import Keleusma.Wire.Layout

/-!
# Opcode records

The encoding of one instruction. A record has four bytes: the parity bit and the identifier of the
opcode, and three operand bytes. An operand that does not fit is stored in an entry of the operand
pool, which the record then names by its index. The forms of a composite access and of a composite
construction are told apart by reserved values of the record's last byte (`GetIndex`: of its first
two operand bytes).

`encodeOp` appends to the pool; `decodeOp` reads a record against a pool.
-/

namespace Keleusma.Framing

open KeleusmaWire (Byte)

/-- The failures of the codec. -/
inductive WireFormatError
  | opcodeRecordParityMismatch
  | unknownOpcodeId (id : ℕ)
  | operandPoolIndexOutOfBounds (idx : ℕ)
  | operandPoolParityMismatch
  | operandPoolTagMismatch (observed expected : Byte)
  | operandPoolIndexOverflow
  | tupleFieldKindUnknown (tag : Byte)
  deriving DecidableEq, Repr

/-! ## Constants -/

/-- The shapes of the entries of the operand pool: two 16-bit numbers. -/
def poolTagU16U16 : Byte := 0x01
/-- Two 16-bit numbers and a byte. -/
def poolTagU16U16U8 : Byte := 0x02
/-- Three 16-bit numbers. -/
def poolTagU16U16U16 : Byte := 0x03
/-- Two 24-bit numbers. -/
def poolTagU24U24 : Byte := 0x04

/-- The form of a composite access that goes by name or position. -/
def tupleFieldBoxedSentinel : Byte := 0xFF

/-- The forms that read a nested composite; the low two bits are the kind of the composite. -/
def flatNestedSentinelBase : Byte := 0xF0
/-- The bits by which these forms are told. -/
def flatNestedSentinelMask : Byte := 0xFC

/-- The largest field count carried in the record of a construction. -/
def newCompositeInlineMaxCount : ℕ := 0x3E

/-- The form of a construction whose operands are in the pool. -/
def newCompositePoolSentinel : Byte := 0x3F

/-- The most entries of an operand pool. -/
def maxPoolEntries : ℕ := 2 ^ 24

/-! ## Bytes of numbers -/

/-- A byte of a number's little-endian encoding. -/
def leByte (i v : ℕ) : Byte := BitVec.ofNat 8 (v >>> (8 * i))

/-- The number of two bytes. -/
def u16FromLe (b₀ b₁ : Byte) : ℕ := LittleEndian.ofBytes [b₀, b₁]

/-- The number of four bytes. -/
def u32FromLe (b₀ b₁ b₂ b₃ : Byte) : ℕ := LittleEndian.ofBytes [b₀, b₁, b₂, b₃]

/-- The number of one bits. -/
def countOnes (b : Byte) : ℕ := (List.range 8).countP b.getLsbD

/-! ## Records -/

/-- A record: the parity bit with the identifier, then the operand. -/
structure OpcodeRecord where
  b0 : Byte
  b1 : Byte
  b2 : Byte
  b3 : Byte
  deriving DecidableEq, Repr

/-- The three operand bytes. -/
structure OperandBytes where
  x : Byte
  y : Byte
  z : Byte
  deriving DecidableEq, Repr

/-- The parity of four bytes. -/
def computeParity (b₀ b₁ b₂ b₃ : Byte) : Byte :=
  BitVec.ofNat 8 ((countOnes b₀ + countOnes b₁ + countOnes b₂ + countOnes b₃) &&& 1)

namespace OpcodeRecord

/-- The record of an identifier and its operand, its parity bit computed. -/
def fromIdAndOperand (id : ℕ) (operand : OperandBytes) : OpcodeRecord :=
  let raw := BitVec.ofNat 8 id &&& 0x7F
  let parity := computeParity raw operand.x operand.y operand.z
  ⟨raw ||| (parity <<< 7), operand.x, operand.y, operand.z⟩

/-- The identifier, without the parity bit. -/
def opcodeId (r : OpcodeRecord) : ℕ := (r.b0 &&& 0x7F).toNat

/-- Whether the parity bit is the one of the record. -/
def checkParity (r : OpcodeRecord) : Except WireFormatError Unit :=
  let expected := (r.b0 >>> 7) &&& 1
  if computeParity (r.b0 &&& 0x7F) r.b1 r.b2 r.b3 = expected then .ok ()
  else .error .opcodeRecordParityMismatch

/-- The operand as a byte. -/
def operandU8 (r : OpcodeRecord) : ℕ := r.b1.toNat
/-- The operand as a 16-bit number. -/
def operandU16 (r : OpcodeRecord) : ℕ := u16FromLe r.b1 r.b2
/-- The operand as a 24-bit number. -/
def operandU24 (r : OpcodeRecord) : ℕ := u32FromLe r.b1 r.b2 r.b3 0
/-- The operand as an index of the operand pool. -/
def operandPoolIndex (r : OpcodeRecord) : ℕ := u32FromLe r.b1 r.b2 r.b3 0

end OpcodeRecord

/-! ## Entries of the operand pool -/

/-- An entry: the tag of its shape, the parity byte, and six bytes of payload. -/
structure OperandPoolEntry where
  b0 : Byte
  b1 : Byte
  b2 : Byte
  b3 : Byte
  b4 : Byte
  b5 : Byte
  b6 : Byte
  b7 : Byte
  deriving DecidableEq, Repr

/-- The exclusive or of the bytes that the parity byte covers. -/
def poolEntryParity (bytes : List Byte) : Byte := bytes.foldl (· ^^^ ·) 0

namespace OperandPoolEntry

/-- The entry with a tag and a payload, its parity byte computed. -/
def ofPayload (tag p₂ p₃ p₄ p₅ p₆ p₇ : Byte) : OperandPoolEntry :=
  ⟨tag, poolEntryParity [tag, p₂, p₃, p₄, p₅, p₆, p₇], p₂, p₃, p₄, p₅, p₆, p₇⟩

/-- The entry of two 16-bit numbers. -/
def fromU16U16 (a b : ℕ) : OperandPoolEntry :=
  ofPayload poolTagU16U16 (leByte 0 a) (leByte 1 a) (leByte 0 b) (leByte 1 b) 0 0

/-- The entry of two 24-bit numbers. -/
def fromU24U24 (a b : ℕ) : OperandPoolEntry :=
  ofPayload poolTagU24U24 (leByte 0 a) (leByte 1 a) (leByte 2 a) (leByte 0 b) (leByte 1 b) (leByte 2 b)

/-- The entry of two 16-bit numbers and a byte. -/
def fromU16U16U8 (a b c : ℕ) : OperandPoolEntry :=
  ofPayload poolTagU16U16U8 (leByte 0 a) (leByte 1 a) (leByte 0 b) (leByte 1 b) (leByte 0 c) 0

/-- The entry of three 16-bit numbers. -/
def fromU16U16U16 (a b c : ℕ) : OperandPoolEntry :=
  ofPayload poolTagU16U16U16 (leByte 0 a) (leByte 1 a) (leByte 0 b) (leByte 1 b) (leByte 0 c)
    (leByte 1 c)

/-- The shape of the entry. -/
def tag (e : OperandPoolEntry) : Byte := e.b0

/-- Whether the parity byte is the one of the entry. -/
def checkParity (e : OperandPoolEntry) : Except WireFormatError Unit :=
  if poolEntryParity [e.b0, e.b2, e.b3, e.b4, e.b5, e.b6, e.b7] = e.b1 then .ok ()
  else .error .operandPoolParityMismatch

/-- The payload as two 16-bit numbers. -/
def asU16U16 (e : OperandPoolEntry) : ℕ × ℕ := (u16FromLe e.b2 e.b3, u16FromLe e.b4 e.b5)

/-- The payload as two 24-bit numbers. -/
def asU24U24 (e : OperandPoolEntry) : ℕ × ℕ :=
  (u32FromLe e.b2 e.b3 e.b4 0, u32FromLe e.b5 e.b6 e.b7 0)

/-- The payload as three 16-bit numbers. -/
def asU16U16U16 (e : OperandPoolEntry) : ℕ × ℕ × ℕ :=
  (u16FromLe e.b2 e.b3, u16FromLe e.b4 e.b5, u16FromLe e.b6 e.b7)

/-- The payload as two 16-bit numbers and a byte. -/
def asU16U16U8 (e : OperandPoolEntry) : ℕ × ℕ × ℕ :=
  (u16FromLe e.b2 e.b3, u16FromLe e.b4 e.b5, e.b6.toNat)

end OperandPoolEntry

/-- The operands of a chunk that do not fit the records. -/
abbrev OperandPool : Type := List OperandPoolEntry

/-! ## Identifiers -/

/-- The identifier of an opcode; 34 to 37 are vacant. -/
def opcodeIdOf : Op → ℕ
  | .const _ => 0
  | .getLocal _ => 1
  | .setLocal _ => 2
  | .getData _ => 3
  | .setData _ => 4
  | .getDataIndexed _ _ => 5
  | .setDataIndexed _ _ => 6
  | .boundsCheck _ => 7
  | .add => 8
  | .sub => 9
  | .mul => 10
  | .div => 11
  | .mod => 12
  | .neg => 13
  | .cmpEq => 14
  | .cmpNe => 15
  | .cmpLt => 16
  | .cmpGt => 17
  | .cmpLe => 18
  | .cmpGe => 19
  | .not => 20
  | .ifOp _ => 21
  | .elseOp _ => 22
  | .endIf => 23
  | .loop _ => 24
  | .endLoop _ => 25
  | .break _ => 26
  | .breakIf _ => 27
  | .stream => 28
  | .reset => 29
  | .call _ _ => 30
  | .return => 31
  | .yield => 32
  | .dup => 33
  | .getField _ => 38
  | .getIndex _ => 39
  | .getTupleField _ => 40
  | .getEnumField _ => 41
  | .len => 42
  | .isEnum _ _ _ => 43
  | .isStruct _ => 44
  | .intToFloat => 45
  | .floatToInt => 46
  | .wordToByte => 47
  | .byteToWord => 48
  | .wordToFixed _ => 49
  | .fixedToWord _ => 50
  | .fixedMul _ => 51
  | .fixedDiv _ => 52
  | .trap _ => 53
  | .checkedAdd => 54
  | .checkedSub => 55
  | .checkedMul _ => 56
  | .checkedNeg => 57
  | .checkedDiv _ => 58
  | .checkedMod => 59
  | .pushImmediate _ => 60
  | .popN _ => 61
  | .bitAnd => 62
  | .bitOr => 63
  | .bitXor => 64
  | .shl => 65
  | .shr => 66
  | .callVerifiedNative _ _ => 67
  | .callExternalNative _ _ => 68
  | .newComposite _ => 69

/-! ## Encoding -/

/-- Append an entry and name it with a 24-bit index. -/
def spill (pool : OperandPool) (entry : OperandPoolEntry) :
    Except WireFormatError (OperandBytes × OperandPool) :=
  let idx := pool.length
  if maxPoolEntries ≤ idx then .error .operandPoolIndexOverflow
  else .ok (⟨leByte 0 idx, leByte 1 idx, leByte 2 idx⟩, pool ++ [entry])

/-- Append an entry and name it with a 16-bit index; the third operand byte is a sentinel. -/
def spillMarked (pool : OperandPool) (entry : OperandPoolEntry) (mark : Byte) :
    Except WireFormatError (OperandBytes × OperandPool) :=
  let idx := pool.length
  if maxPoolEntries ≤ idx ∨ 2 ^ 16 - 1 < idx then .error .operandPoolIndexOverflow
  else .ok (⟨leByte 0 idx, leByte 1 idx, mark⟩, pool ++ [entry])

/-- The operand bytes of an access to a nested composite, whose numbers go to the pool. -/
def encodeNested (pool : OperandPool) (a b : ℕ) (variant : CompositeKind) :
    Except WireFormatError (OperandBytes × OperandPool) :=
  spillMarked pool (.fromU16U16 a b) (flatNestedSentinelBase ||| BitVec.ofNat 8 variant.toTag)

/-- The operand bytes of an instruction, and the pool after it. -/
def encodeOperand (pool : OperandPool) :
    Op → Except WireFormatError (OperandBytes × OperandPool)
  | .add | .sub | .mul | .div | .mod | .neg | .cmpEq | .cmpNe | .cmpLt | .cmpGt | .cmpLe | .cmpGe
  | .not | .endIf | .stream | .reset | .return | .yield | .dup | .len | .intToFloat | .floatToInt
  | .wordToByte | .byteToWord | .checkedAdd | .checkedSub | .checkedNeg | .checkedMod | .bitAnd
  | .bitOr | .bitXor | .shl | .shr => .ok (⟨0, 0, 0⟩, pool)
  | .getEnumField (.flat offset kind) =>
    .ok (⟨leByte 0 offset, leByte 1 offset, BitVec.ofNat 8 kind.toTag⟩, pool)
  | .getEnumField (.flatNested offset size variant) => encodeNested pool offset size variant
  | .getEnumField (.boxed index) => .ok (⟨leByte 0 index, 0, tupleFieldBoxedSentinel⟩, pool)
  | .wordToFixed n | .fixedToWord n | .fixedMul n | .fixedDiv n | .checkedMul n | .checkedDiv n
  | .pushImmediate n | .popN n => .ok (⟨leByte 0 n, 0, 0⟩, pool)
  | .const v | .getLocal v | .setLocal v | .boundsCheck v | .ifOp v | .elseOp v | .loop v
  | .endLoop v | .break v | .breakIf v | .isStruct v | .trap v =>
    .ok (⟨leByte 0 v, leByte 1 v, 0⟩, pool)
  | .getData v | .setData v => .ok (⟨leByte 0 v, leByte 1 v, leByte 2 v⟩, pool)
  | .call c n | .callVerifiedNative c n | .callExternalNative c n =>
    .ok (⟨leByte 0 c, leByte 1 c, leByte 0 n⟩, pool)
  | .getTupleField (.flat offset kind) =>
    .ok (⟨leByte 0 offset, leByte 1 offset, BitVec.ofNat 8 kind.toTag⟩, pool)
  | .getTupleField (.flatNested offset size variant) => encodeNested pool offset size variant
  | .getTupleField (.boxed index) => .ok (⟨leByte 0 index, 0, tupleFieldBoxedSentinel⟩, pool)
  | .getField (.flat offset kind) =>
    .ok (⟨leByte 0 offset, leByte 1 offset, BitVec.ofNat 8 kind.toTag⟩, pool)
  | .getField (.flatNested offset size variant) => encodeNested pool offset size variant
  | .getField (.boxed nameConst) =>
    .ok (⟨leByte 0 nameConst, leByte 1 nameConst, tupleFieldBoxedSentinel⟩, pool)
  | .getIndex (.flat kind) => .ok (⟨BitVec.ofNat 8 kind.toTag, 0, 0⟩, pool)
  | .getIndex (.flatNested size variant) => encodeNested pool size 0 variant
  | .getIndex .boxed => .ok (⟨tupleFieldBoxedSentinel, 0, 0⟩, pool)
  | .getDataIndexed a b | .setDataIndexed a b => spill pool (.fromU24U24 a b)
  | .isEnum a b d => spill pool (.fromU16U16U16 a b d)
  | .newComposite operand =>
    let (kind, count, bField, boxedFlag) := match operand with
      | .flat kind count byteSize => (kind, count, byteSize, 0)
      | .boxed kind count metaIdx => (kind, count, metaIdx, 1)
    let ktag := BitVec.ofNat 8 kind.toTag
    if boxedFlag = 0 ∧ count ≤ newCompositeInlineMaxCount then
      .ok (⟨leByte 0 bField, leByte 1 bField, (ktag <<< 6) ||| leByte 0 count⟩, pool)
    else
      spillMarked pool (.fromU16U16U8 count bField boxedFlag)
        ((ktag <<< 6) ||| newCompositePoolSentinel)

/-- Encode an instruction: its record, and the pool with the entry it may have appended. -/
def encodeOp (op : Op) (pool : OperandPool) :
    Except WireFormatError (OpcodeRecord × OperandPool) := do
  let (operand, pool) ← encodeOperand pool op
  return (.fromIdAndOperand (opcodeIdOf op) operand, pool)

/-! ## Decoding -/

/-- Fetch an entry of the pool: its index, its parity and its tag are checked, in this order. -/
def fetch (pool : OperandPool) (idx : ℕ) (expected : Byte) :
    Except WireFormatError OperandPoolEntry :=
  match pool[idx]? with
  | none => .error (.operandPoolIndexOutOfBounds idx)
  | some entry => do
    entry.checkParity
    if entry.tag ≠ expected then .error (.operandPoolTagMismatch entry.tag expected)
    else .ok entry

/-- The kind of the composite, if the form is one of a nested composite. -/
def decodeNestedVariant (tag : Byte) : Option CompositeKind :=
  if tag &&& flatNestedSentinelMask = flatNestedSentinelBase then
    CompositeKind.fromTag (tag &&& ~~~flatNestedSentinelMask).toNat
  else none

/-- The two numbers in the pool of an access to a nested composite. -/
def decodeNestedPool (r : OpcodeRecord) (pool : OperandPool) : Except WireFormatError (ℕ × ℕ) := do
  let entry ← fetch pool (u16FromLe r.b1 r.b2) poolTagU16U16
  return entry.asU16U16

/-- The operand of a record that names an entry of two 24-bit numbers. -/
def decodePoolU24U24 (r : OpcodeRecord) (pool : OperandPool) :
    Except WireFormatError (ℕ × ℕ) := do
  let entry ← fetch pool r.operandPoolIndex poolTagU24U24
  return entry.asU24U24

/-- The operand of a record that names an entry of three 16-bit numbers. -/
def decodePoolU16U16U16 (r : OpcodeRecord) (pool : OperandPool) :
    Except WireFormatError (ℕ × ℕ × ℕ) := do
  let entry ← fetch pool r.operandPoolIndex poolTagU16U16U16
  return entry.asU16U16U16

/-- The kind of scalar that a byte stands for. -/
def scalarKindOf (tag : Byte) : Except WireFormatError ScalarKind :=
  match ScalarKind.fromTag tag.toNat with
  | some kind => .ok kind
  | none => .error (.tupleFieldKindUnknown tag)

/-- The operand of a field access, in the three forms. -/
def decodeField {α : Type} (boxed : OpcodeRecord → α) (nested : ℕ → ℕ → CompositeKind → α)
    (flat : ℕ → ScalarKind → α) (r : OpcodeRecord) (pool : OperandPool) :
    Except WireFormatError α :=
  if r.b3 = tupleFieldBoxedSentinel then .ok (boxed r)
  else match decodeNestedVariant r.b3 with
    | some variant => do
      let (offset, size) ← decodeNestedPool r pool
      return nested offset size variant
    | none => do
      let kind ← scalarKindOf r.b3
      return flat (u16FromLe r.b1 r.b2) kind

/-- The operand of `GetField`, which names a boxed field by the constant of its name. -/
def decodeGetField : OpcodeRecord → OperandPool → Except WireFormatError StructField :=
  decodeField (fun r => .boxed (u16FromLe r.b1 r.b2)) .flatNested .flat

/-- The operand of `GetTupleField`, which counts boxed fields. -/
def decodeGetTupleField : OpcodeRecord → OperandPool → Except WireFormatError TupleField :=
  decodeField (fun r => .boxed r.b1.toNat) .flatNested .flat

/-- The operand of `GetEnumField`, which counts boxed fields. -/
def decodeGetEnumField : OpcodeRecord → OperandPool → Except WireFormatError EnumField :=
  decodeField (fun r => .boxed r.b1.toNat) .flatNested .flat

/-- The operand of `GetIndex`, in the three forms of an element. -/
def decodeGetIndex (r : OpcodeRecord) (pool : OperandPool) : Except WireFormatError ArrayElem :=
  if r.b3 = 0 ∧ r.b1 = tupleFieldBoxedSentinel then .ok .boxed
  else match decodeNestedVariant r.b3 with
    | some variant => do
      let (size, _) ← decodeNestedPool r pool
      return .flatNested size variant
    | none => do
      let kind ← scalarKindOf r.b1
      return .flat kind

/-- The operand of `NewComposite`, in the record or in the pool. -/
def decodeNewComposite (r : OpcodeRecord) (pool : OperandPool) :
    Except WireFormatError NewCompositeOperand :=
  match CompositeKind.fromTag (r.b3 >>> 6).toNat with
  | none => .error (.tupleFieldKindUnknown r.b3)
  | some kind =>
    let low := r.b3 &&& 0x3F
    if low = newCompositePoolSentinel then do
      let entry ← fetch pool (u16FromLe r.b1 r.b2) poolTagU16U16U8
      let (count, bField, boxedFlag) := entry.asU16U16U8
      if boxedFlag = 1 then return .boxed kind count bField
      else return .flat kind count bField
    else .ok (.flat kind low.toNat (u16FromLe r.b1 r.b2))

/-- The instruction that an identifier and the operand bytes of a record stand for. -/
def decodeOperand (r : OpcodeRecord) (pool : OperandPool) : ℕ → Except WireFormatError Op
  | 0 => .ok (.const r.operandU16)
  | 1 => .ok (.getLocal r.operandU16)
  | 2 => .ok (.setLocal r.operandU16)
  | 3 => .ok (.getData r.operandU24)
  | 4 => .ok (.setData r.operandU24)
  | 5 => do
    let (a, b) ← decodePoolU24U24 r pool
    return .getDataIndexed a b
  | 6 => do
    let (a, b) ← decodePoolU24U24 r pool
    return .setDataIndexed a b
  | 7 => .ok (.boundsCheck r.operandU16)
  | 8 => .ok .add
  | 9 => .ok .sub
  | 10 => .ok .mul
  | 11 => .ok .div
  | 12 => .ok .mod
  | 13 => .ok .neg
  | 14 => .ok .cmpEq
  | 15 => .ok .cmpNe
  | 16 => .ok .cmpLt
  | 17 => .ok .cmpGt
  | 18 => .ok .cmpLe
  | 19 => .ok .cmpGe
  | 20 => .ok .not
  | 21 => .ok (.ifOp r.operandU16)
  | 22 => .ok (.elseOp r.operandU16)
  | 23 => .ok .endIf
  | 24 => .ok (.loop r.operandU16)
  | 25 => .ok (.endLoop r.operandU16)
  | 26 => .ok (.break r.operandU16)
  | 27 => .ok (.breakIf r.operandU16)
  | 28 => .ok .stream
  | 29 => .ok .reset
  | 30 => .ok (.call r.operandU16 r.b3.toNat)
  | 31 => .ok .return
  | 32 => .ok .yield
  | 33 => .ok .dup
  | 38 => return .getField (← decodeGetField r pool)
  | 39 => return .getIndex (← decodeGetIndex r pool)
  | 40 => return .getTupleField (← decodeGetTupleField r pool)
  | 41 => return .getEnumField (← decodeGetEnumField r pool)
  | 42 => .ok .len
  | 43 => do
    let (a, b, d) ← decodePoolU16U16U16 r pool
    return .isEnum a b d
  | 44 => .ok (.isStruct r.operandU16)
  | 45 => .ok .intToFloat
  | 46 => .ok .floatToInt
  | 47 => .ok .wordToByte
  | 48 => .ok .byteToWord
  | 49 => .ok (.wordToFixed r.operandU8)
  | 50 => .ok (.fixedToWord r.operandU8)
  | 51 => .ok (.fixedMul r.operandU8)
  | 52 => .ok (.fixedDiv r.operandU8)
  | 53 => .ok (.trap r.operandU16)
  | 54 => .ok .checkedAdd
  | 55 => .ok .checkedSub
  | 56 => .ok (.checkedMul r.operandU8)
  | 57 => .ok .checkedNeg
  | 58 => .ok (.checkedDiv r.operandU8)
  | 59 => .ok .checkedMod
  | 60 => .ok (.pushImmediate r.operandU8)
  | 61 => .ok (.popN r.operandU8)
  | 62 => .ok .bitAnd
  | 63 => .ok .bitOr
  | 64 => .ok .bitXor
  | 65 => .ok .shl
  | 66 => .ok .shr
  | 67 => .ok (.callVerifiedNative r.operandU16 r.b3.toNat)
  | 68 => .ok (.callExternalNative r.operandU16 r.b3.toNat)
  | 69 => return .newComposite (← decodeNewComposite r pool)
  | other => .error (.unknownOpcodeId other)

/-- Decode a record against a pool. -/
def decodeOp (r : OpcodeRecord) (pool : OperandPool) : Except WireFormatError Op := do
  r.checkParity
  decodeOperand r pool r.opcodeId

/-! ## Instruction sequences -/

/-- Encode the instructions of a chunk, one record each. -/
def encodeOps (pool : OperandPool) :
    List Op → Except WireFormatError (List OpcodeRecord × OperandPool)
  | [] => .ok ([], pool)
  | op :: ops => do
    let (record, pool) ← encodeOp op pool
    let (records, pool) ← encodeOps pool ops
    return (record :: records, pool)

/-- Decode the records of a chunk. -/
def decodeOps (pool : OperandPool) (records : List OpcodeRecord) :
    Except WireFormatError (List Op) :=
  records.mapM fun record => decodeOp record pool

end Keleusma.Framing
