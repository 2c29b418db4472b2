import Keleusma.Framing.Opcodes

/-!
# The opcode codec

Decoding inverts encoding. A record is read back against any extension of the pool that its encoding
left, so the records of a whole module can be read against the module's final pool
(`decodeOps_encodeOps`). The operands of fixed width are kept exactly, with one exception: a data
segment operand is a 32-bit number of which 24 bits are stored.
-/

namespace Keleusma.Framing

open KeleusmaWire (Byte)

/-! ## Numbers -/

theorem toNat_leByte (i v : ℕ) : (leByte i v).toNat = v / 2 ^ (8 * i) % 2 ^ 8 := by
  rw [leByte, BitVec.toNat_ofNat, Nat.shiftRight_eq_div_pow]

theorem toNat_leByte_zero {v : ℕ} (h : v < 2 ^ 8) : (leByte 0 v).toNat = v := by
  rw [toNat_leByte]
  omega

theorem u16FromLe_leByte {v : ℕ} (h : v < 2 ^ 16) : u16FromLe (leByte 0 v) (leByte 1 v) = v := by
  simp only [u16FromLe, LittleEndian.ofBytes, toNat_leByte]
  omega

/-- Three bytes hold the number modulo `2 ^ 24`. -/
theorem u32FromLe_leByte (v : ℕ) :
    u32FromLe (leByte 0 v) (leByte 1 v) (leByte 2 v) 0 = v % 2 ^ 24 := by
  have hzero : (0 : Byte).toNat = 0 := rfl
  simp only [u32FromLe, LittleEndian.ofBytes, toNat_leByte, hzero]
  omega

/-! ## Records and entries -/

/-- The parity of a record is a bit. -/
theorem computeParity_eq (b₀ b₁ b₂ b₃ : Byte) :
    computeParity b₀ b₁ b₂ b₃ = 0 ∨ computeParity b₀ b₁ b₂ b₃ = 1 := by
  rw [computeParity, Nat.and_one_is_mod]
  rcases Nat.mod_two_eq_zero_or_one (countOnes b₀ + countOnes b₁ + countOnes b₂ + countOnes b₃)
    with h | h
  · rw [h]
    exact .inl rfl
  · rw [h]
    exact .inr rfl

/-- The low seven bits of a byte with a parity bit on top. -/
theorem low_of_parity (raw : Byte) {p : Byte} (hp : p = 0 ∨ p = 1) :
    ((raw &&& 0x7F) ||| (p <<< 7)) &&& 0x7F = raw &&& 0x7F := by
  revert raw
  obtain rfl | rfl := hp <;> decide +kernel

theorem high_of_parity (raw : Byte) {p : Byte} (hp : p = 0 ∨ p = 1) :
    (((raw &&& 0x7F) ||| (p <<< 7)) >>> 7) &&& 1 = p := by
  revert raw
  obtain rfl | rfl := hp <;> decide +kernel

namespace OpcodeRecord

variable (id : ℕ) (operand : OperandBytes)

@[simp] theorem fromIdAndOperand_b1 : (fromIdAndOperand id operand).b1 = operand.x := rfl
@[simp] theorem fromIdAndOperand_b2 : (fromIdAndOperand id operand).b2 = operand.y := rfl
@[simp] theorem fromIdAndOperand_b3 : (fromIdAndOperand id operand).b3 = operand.z := rfl

theorem fromIdAndOperand_low :
    (fromIdAndOperand id operand).b0 &&& 0x7F = BitVec.ofNat 8 id &&& 0x7F :=
  low_of_parity _ (computeParity_eq ..)

theorem checkParity_fromIdAndOperand : (fromIdAndOperand id operand).checkParity = .ok () := by
  have hhigh : ((fromIdAndOperand id operand).b0 >>> 7) &&& 1 =
      computeParity (BitVec.ofNat 8 id &&& 0x7F) operand.x operand.y operand.z :=
    high_of_parity _ (computeParity_eq ..)
  simp only [checkParity, fromIdAndOperand_low, hhigh, fromIdAndOperand_b1, fromIdAndOperand_b2,
    fromIdAndOperand_b3, if_pos]

theorem opcodeId_fromIdAndOperand {id : ℕ} (hid : id < 2 ^ 7) :
    (fromIdAndOperand id operand).opcodeId = id := by
  have hmask : (0x7F : Byte).toNat = 2 ^ 7 - 1 := rfl
  rw [opcodeId, fromIdAndOperand_low, BitVec.toNat_and, BitVec.toNat_ofNat, hmask,
    Nat.and_two_pow_sub_one_eq_mod]
  omega

end OpcodeRecord

theorem opcodeIdOf_lt (op : Op) : opcodeIdOf op < 2 ^ 7 := by
  have h : opcodeIdOf op ≤ 69 := by cases op <;> simp only [opcodeIdOf] <;> omega
  omega

namespace OperandPoolEntry

@[simp] theorem checkParity_ofPayload (t p₂ p₃ p₄ p₅ p₆ p₇ : Byte) :
    (ofPayload t p₂ p₃ p₄ p₅ p₆ p₇).checkParity = .ok () := if_pos rfl

@[simp] theorem tag_ofPayload (t p₂ p₃ p₄ p₅ p₆ p₇ : Byte) :
    (ofPayload t p₂ p₃ p₄ p₅ p₆ p₇).tag = t := rfl

theorem asU16U16_fromU16U16 {a b : ℕ} (ha : a < 2 ^ 16) (hb : b < 2 ^ 16) :
    (fromU16U16 a b).asU16U16 = (a, b) := by
  simp only [fromU16U16, ofPayload, asU16U16, u16FromLe_leByte ha, u16FromLe_leByte hb]

theorem asU24U24_fromU24U24 (a b : ℕ) :
    (fromU24U24 a b).asU24U24 = (a % 2 ^ 24, b % 2 ^ 24) := by
  simp only [fromU24U24, ofPayload, asU24U24, u32FromLe_leByte]

theorem asU16U16U16_fromU16U16U16 {a b c : ℕ} (ha : a < 2 ^ 16) (hb : b < 2 ^ 16)
    (hc : c < 2 ^ 16) : (fromU16U16U16 a b c).asU16U16U16 = (a, b, c) := by
  simp only [fromU16U16U16, ofPayload, asU16U16U16, u16FromLe_leByte ha, u16FromLe_leByte hb,
    u16FromLe_leByte hc]

theorem asU16U16U8_fromU16U16U8 {a b c : ℕ} (ha : a < 2 ^ 16) (hb : b < 2 ^ 16)
    (hc : c < 2 ^ 8) : (fromU16U16U8 a b c).asU16U16U8 = (a, b, c) := by
  simp only [fromU16U16U8, ofPayload, asU16U16U8, u16FromLe_leByte ha, u16FromLe_leByte hb,
    toNat_leByte_zero hc]

end OperandPoolEntry

/-! ## The pool -/

/-- An entry is fetched from any extension of the pool it was appended to. -/
theorem fetch_appended {pool more : OperandPool} {entry : OperandPoolEntry} {expected : Byte}
    (hparity : entry.checkParity = .ok ()) (htag : entry.tag = expected) :
    fetch (pool ++ [entry] ++ more) pool.length expected = .ok entry := by
  have hget : (pool ++ [entry] ++ more)[pool.length]? = some entry := by
    rw [List.append_assoc, List.getElem?_append_right le_rfl, Nat.sub_self]
    rfl
  simp only [fetch, hget, hparity, htag, ne_eq, not_true_eq_false, if_false]
  rfl

theorem spill_ok {pool pool' : OperandPool} {entry : OperandPoolEntry} {operand : OperandBytes}
    (h : spill pool entry = .ok (operand, pool')) :
    pool' = pool ++ [entry] ∧ u32FromLe operand.x operand.y operand.z 0 = pool.length := by
  rw [spill] at h
  split_ifs at h with hfull
  cases h
  have hlt : pool.length < 2 ^ 24 := not_le.mp hfull
  exact ⟨rfl, by rw [u32FromLe_leByte, Nat.mod_eq_of_lt hlt]⟩

theorem spillMarked_ok {pool pool' : OperandPool} {entry : OperandPoolEntry} {mark : Byte}
    {operand : OperandBytes} (h : spillMarked pool entry mark = .ok (operand, pool')) :
    pool' = pool ++ [entry] ∧ u16FromLe operand.x operand.y = pool.length ∧ operand.z = mark := by
  rw [spillMarked] at h
  split_ifs at h with hfull
  cases h
  have hlt : pool.length < 2 ^ 16 := by omega
  exact ⟨rfl, u16FromLe_leByte hlt, rfl⟩

/-! ## The forms of a composite operand -/

@[simp] theorem scalarKindOf_toTag (kind : ScalarKind) :
    scalarKindOf (BitVec.ofNat 8 kind.toTag) = .ok kind := by
  cases kind <;> rfl

/-- The tag of a scalar kind marks none of the other forms. -/
theorem scalarTag_plain (kind : ScalarKind) :
    BitVec.ofNat 8 kind.toTag ≠ tupleFieldBoxedSentinel ∧
      decodeNestedVariant (BitVec.ofNat 8 kind.toTag) = none := by
  cases kind <;> decide

/-- The sentinel of a nested composite is read back, and is not the sentinel of the boxed form. -/
theorem nestedTag_read (variant : CompositeKind) :
    flatNestedSentinelBase ||| BitVec.ofNat 8 variant.toTag ≠ tupleFieldBoxedSentinel ∧
      flatNestedSentinelBase ||| BitVec.ofNat 8 variant.toTag ≠ 0 ∧
      decodeNestedVariant (flatNestedSentinelBase ||| BitVec.ofNat 8 variant.toTag) =
        some variant := by
  cases variant <;> decide

theorem decodeNestedVariant_zero : decodeNestedVariant 0 = none := by decide

/-- The kind and the count share a byte. -/
theorem packed_kind (kind : CompositeKind) {low : Byte} (hlow : low < 0x40) :
    CompositeKind.fromTag (((BitVec.ofNat 8 kind.toTag) <<< 6 ||| low) >>> 6).toNat = some kind ∧
      (((BitVec.ofNat 8 kind.toTag) <<< 6 ||| low) &&& 0x3F) = low := by
  revert low
  cases kind <;> decide +kernel

theorem decodeNestedPool_encodeNested {pool pool' more : OperandPool} {a b id : ℕ}
    {variant : CompositeKind} {operand : OperandBytes} (ha : a < 2 ^ 16) (hb : b < 2 ^ 16)
    (h : encodeNested pool a b variant = .ok (operand, pool')) :
    decodeNestedPool (.fromIdAndOperand id operand) (pool' ++ more) = .ok (a, b) := by
  obtain ⟨rfl, hidx, -⟩ := spillMarked_ok h
  have hfetch : fetch (pool ++ [OperandPoolEntry.fromU16U16 a b] ++ more) pool.length
      poolTagU16U16 = .ok (.fromU16U16 a b) :=
    fetch_appended (OperandPoolEntry.checkParity_ofPayload ..) rfl
  simp only [decodeNestedPool, OpcodeRecord.fromIdAndOperand_b1, OpcodeRecord.fromIdAndOperand_b2,
    hidx, hfetch]
  exact congrArg Except.ok (OperandPoolEntry.asU16U16_fromU16U16 ha hb)

section Fields

variable {α : Type} {boxed : OpcodeRecord → α} {nested : ℕ → ℕ → CompositeKind → α}
  {flat : ℕ → ScalarKind → α} {id : ℕ} {pool pool' more : OperandPool}

theorem decodeField_flat {offset : ℕ} (kind : ScalarKind) (hoffset : offset < 2 ^ 16) :
    decodeField boxed nested flat
      (.fromIdAndOperand id ⟨leByte 0 offset, leByte 1 offset, BitVec.ofNat 8 kind.toTag⟩) pool =
        .ok (flat offset kind) := by
  obtain ⟨hboxed, hnested⟩ := scalarTag_plain kind
  simp only [decodeField, OpcodeRecord.fromIdAndOperand_b1, OpcodeRecord.fromIdAndOperand_b2,
    OpcodeRecord.fromIdAndOperand_b3, if_neg hboxed, hnested, scalarKindOf_toTag,
    u16FromLe_leByte hoffset]
  rfl

theorem decodeField_nested {offset size : ℕ} {variant : CompositeKind} {operand : OperandBytes}
    (hoffset : offset < 2 ^ 16) (hsize : size < 2 ^ 16)
    (h : encodeNested pool offset size variant = .ok (operand, pool')) :
    decodeField boxed nested flat (.fromIdAndOperand id operand) (pool' ++ more) =
      .ok (nested offset size variant) := by
  obtain ⟨-, -, hmark⟩ := spillMarked_ok h
  obtain ⟨hboxed, -, hnested⟩ := nestedTag_read variant
  have hpool : decodeNestedPool (.fromIdAndOperand id operand) (pool' ++ more) =
      .ok (offset, size) := decodeNestedPool_encodeNested hoffset hsize h
  simp only [decodeField, OpcodeRecord.fromIdAndOperand_b3, hmark, if_neg hboxed, hnested, hpool]
  rfl

theorem decodeField_boxed {x y : Byte} :
    decodeField boxed nested flat (.fromIdAndOperand id ⟨x, y, tupleFieldBoxedSentinel⟩) pool =
      .ok (boxed (.fromIdAndOperand id ⟨x, y, tupleFieldBoxedSentinel⟩)) :=
  if_pos rfl

end Fields

/-! ## Instructions -/

/-- The operands of the fixed-width types are in range: `u8`, `u16`, and `u32` for the operands of
the data segment. -/
def Op.InWidth : Op → Prop
  | .const v | .getLocal v | .setLocal v | .boundsCheck v | .ifOp v | .elseOp v | .loop v
  | .endLoop v | .break v | .breakIf v | .isStruct v | .trap v => v < 2 ^ 16
  | .getData v | .setData v => v < 2 ^ 32
  | .getDataIndexed a b | .setDataIndexed a b => a < 2 ^ 32 ∧ b < 2 ^ 32
  | .call c n | .callVerifiedNative c n | .callExternalNative c n => c < 2 ^ 16 ∧ n < 2 ^ 8
  | .newComposite (.flat _ a b) | .newComposite (.boxed _ a b) => a < 2 ^ 16 ∧ b < 2 ^ 16
  | .getField (.flat a _) | .getField (.boxed a) => a < 2 ^ 16
  | .getTupleField (.flat a _) | .getEnumField (.flat a _) => a < 2 ^ 16
  | .getTupleField (.boxed a) | .getEnumField (.boxed a) => a < 2 ^ 8
  | .getField (.flatNested a b _) | .getTupleField (.flatNested a b _)
  | .getEnumField (.flatNested a b _) => a < 2 ^ 16 ∧ b < 2 ^ 16
  | .getIndex (.flatNested a _) => a < 2 ^ 16
  | .isEnum a b d => a < 2 ^ 16 ∧ b < 2 ^ 16 ∧ d < 2 ^ 16
  | .wordToFixed n | .fixedToWord n | .fixedMul n | .fixedDiv n | .checkedMul n | .checkedDiv n
  | .pushImmediate n | .popN n => n < 2 ^ 8
  | _ => True

/-- The operands of the data segment fit in the 24 bits that a record or an entry has for them. -/
def Op.DataFits : Op → Prop
  | .getData v | .setData v => v < 2 ^ 24
  | .getDataIndexed a b | .setDataIndexed a b => a < 2 ^ 24 ∧ b < 2 ^ 24
  | _ => True

/-- The instruction with the operands of the data segment cut to 24 bits. -/
def Op.cutData : Op → Op
  | .getData v => .getData (v % 2 ^ 24)
  | .setData v => .setData (v % 2 ^ 24)
  | .getDataIndexed a b => .getDataIndexed (a % 2 ^ 24) (b % 2 ^ 24)
  | .setDataIndexed a b => .setDataIndexed (a % 2 ^ 24) (b % 2 ^ 24)
  | op => op

/-- Cutting changes an instruction exactly when its operands do not fit. -/
theorem Op.cutData_eq_self (op : Op) : Op.cutData op = op ↔ Op.DataFits op := by
  have hmod (v : ℕ) : v % 2 ^ 24 = v ↔ v < 2 ^ 24 := by omega
  cases op
  case getData | setData | getDataIndexed | setDataIndexed =>
    simp only [Op.cutData, Op.DataFits, Op.getData.injEq, Op.setData.injEq,
      Op.getDataIndexed.injEq, Op.setDataIndexed.injEq, hmod]
  all_goals exact iff_of_true rfl trivial

section Decoding

variable {pool pool' more : OperandPool} {operand : OperandBytes} {id : ℕ}

theorem decodePoolU24U24_spilled {a b : ℕ}
    (h : spill pool (.fromU24U24 a b) = .ok (operand, pool')) :
    decodePoolU24U24 (.fromIdAndOperand id operand) (pool' ++ more) =
      .ok (a % 2 ^ 24, b % 2 ^ 24) := by
  obtain ⟨rfl, hidx⟩ := spill_ok h
  have hfetch : fetch (pool ++ [OperandPoolEntry.fromU24U24 a b] ++ more) pool.length
      poolTagU24U24 = .ok (.fromU24U24 a b) :=
    fetch_appended (OperandPoolEntry.checkParity_ofPayload ..) rfl
  simp only [decodePoolU24U24, OpcodeRecord.operandPoolIndex, OpcodeRecord.fromIdAndOperand_b1,
    OpcodeRecord.fromIdAndOperand_b2, OpcodeRecord.fromIdAndOperand_b3, hidx, hfetch]
  exact congrArg Except.ok (OperandPoolEntry.asU24U24_fromU24U24 a b)

theorem decodePoolU16U16U16_spilled {a b d : ℕ} (ha : a < 2 ^ 16) (hb : b < 2 ^ 16)
    (hd : d < 2 ^ 16) (h : spill pool (.fromU16U16U16 a b d) = .ok (operand, pool')) :
    decodePoolU16U16U16 (.fromIdAndOperand id operand) (pool' ++ more) = .ok (a, b, d) := by
  obtain ⟨rfl, hidx⟩ := spill_ok h
  have hfetch : fetch (pool ++ [OperandPoolEntry.fromU16U16U16 a b d] ++ more) pool.length
      poolTagU16U16U16 = .ok (.fromU16U16U16 a b d) :=
    fetch_appended (OperandPoolEntry.checkParity_ofPayload ..) rfl
  simp only [decodePoolU16U16U16, OpcodeRecord.operandPoolIndex, OpcodeRecord.fromIdAndOperand_b1,
    OpcodeRecord.fromIdAndOperand_b2, OpcodeRecord.fromIdAndOperand_b3, hidx, hfetch]
  exact congrArg Except.ok (OperandPoolEntry.asU16U16U16_fromU16U16U16 ha hb hd)

/-- The element kind of an array access is read back in each form. -/
theorem decodeGetIndex_encodeOperand {elem : ArrayElem} (hw : Op.InWidth (.getIndex elem))
    (h : encodeOperand pool (.getIndex elem) = .ok (operand, pool')) :
    decodeGetIndex (.fromIdAndOperand id operand) (pool' ++ more) = .ok elem := by
  cases elem with
  | flat kind =>
    cases h
    have hplain : ¬ BitVec.ofNat 8 kind.toTag = tupleFieldBoxedSentinel := (scalarTag_plain kind).1
    simp only [decodeGetIndex, OpcodeRecord.fromIdAndOperand_b1, OpcodeRecord.fromIdAndOperand_b3,
      hplain, and_false, if_false, decodeNestedVariant_zero, scalarKindOf_toTag]
    rfl
  | flatNested size variant =>
    obtain ⟨-, -, hmark⟩ := spillMarked_ok h
    obtain ⟨-, hzero, hnested⟩ := nestedTag_read variant
    have hpool : decodeNestedPool (.fromIdAndOperand id operand) (pool' ++ more) =
        .ok (size, 0) := decodeNestedPool_encodeNested hw (by decide) h
    simp only [decodeGetIndex, OpcodeRecord.fromIdAndOperand_b3, hmark, hzero, false_and, if_false,
      hnested, hpool]
    rfl
  | boxed =>
    cases h
    rfl

/-- A construction is read back from its record or from the pool. -/
theorem decodeNewComposite_encodeOperand {comp : NewCompositeOperand}
    (hw : Op.InWidth (.newComposite comp))
    (h : encodeOperand pool (.newComposite comp) = .ok (operand, pool')) :
    decodeNewComposite (.fromIdAndOperand id operand) (pool' ++ more) = .ok comp := by
  obtain ⟨kind, count, bField, flag, hflag, hcomp, hcount, hbField, henc⟩ :
      ∃ kind count bField flag, flag < 2 ∧
        comp = (if flag = 1 then .boxed kind count bField else .flat kind count bField) ∧
        count < 2 ^ 16 ∧ bField < 2 ^ 16 ∧
        (if flag = 0 ∧ count ≤ newCompositeInlineMaxCount then
          .ok (⟨leByte 0 bField, leByte 1 bField,
            (BitVec.ofNat 8 kind.toTag <<< 6) ||| leByte 0 count⟩, pool)
        else spillMarked pool (.fromU16U16U8 count bField flag)
          ((BitVec.ofNat 8 kind.toTag <<< 6) ||| newCompositePoolSentinel)) =
            Except.ok (operand, pool') := by
    cases comp with
    | flat kind count byteSize => exact ⟨kind, count, byteSize, 0, by decide, rfl, hw.1, hw.2, h⟩
    | boxed kind count metaIdx => exact ⟨kind, count, metaIdx, 1, by decide, rfl, hw.1, hw.2, h⟩
  split_ifs at henc with hinline
  · -- The count is at most 62, so it is not the sentinel.
    obtain ⟨rfl, hsmall⟩ := hinline
    have hnat : (leByte 0 count).toNat = count :=
      toNat_leByte_zero (hsmall.trans_lt (by decide))
    have hlow : leByte 0 count < 0x40 := by
      rw [BitVec.lt_def, hnat]
      exact hsmall.trans_lt (by decide)
    have hne : leByte 0 count ≠ newCompositePoolSentinel := by
      intro heq
      have hcount' : count = 0x3F := by rw [← hnat, heq]; rfl
      rw [hcount'] at hsmall
      exact absurd hsmall (by decide)
    obtain ⟨hkind, hcountByte⟩ := packed_kind kind hlow
    cases henc
    simp only [decodeNewComposite, OpcodeRecord.fromIdAndOperand_b1,
      OpcodeRecord.fromIdAndOperand_b2, OpcodeRecord.fromIdAndOperand_b3, hkind, hcountByte,
      if_neg hne, hnat, u16FromLe_leByte hbField, hcomp]
    rfl
  · obtain ⟨rfl, hidx, hmark⟩ := spillMarked_ok henc
    obtain ⟨hkind, hsentinel⟩ :=
      packed_kind kind (show newCompositePoolSentinel < 0x40 by decide)
    have hfetch : fetch (pool ++ [OperandPoolEntry.fromU16U16U8 count bField flag] ++ more)
        pool.length poolTagU16U16U8 = .ok (.fromU16U16U8 count bField flag) :=
      fetch_appended (OperandPoolEntry.checkParity_ofPayload ..) rfl
    have hentry := OperandPoolEntry.asU16U16U8_fromU16U16U8 hcount hbField
      (show flag < 2 ^ 8 by omega)
    simp only [decodeNewComposite, OpcodeRecord.fromIdAndOperand_b1,
      OpcodeRecord.fromIdAndOperand_b2, OpcodeRecord.fromIdAndOperand_b3, hmark, hkind, hsentinel,
      hidx, hfetch, if_true, hcomp]
    by_cases hboxed : flag = 1
    · subst hboxed
      simp only [bind, Except.bind, hentry, if_true]
      rfl
    · simp only [bind, Except.bind, hentry, hboxed, if_false]
      rfl

/-- The operand bytes are read back against any extension of the pool. -/
theorem decodeOperand_encodeOperand {op : Op} (hw : Op.InWidth op)
    (h : encodeOperand pool op = .ok (operand, pool')) :
    decodeOperand (.fromIdAndOperand (opcodeIdOf op) operand) (pool' ++ more) (opcodeIdOf op) =
      .ok (Op.cutData op) := by
  cases op
  case const v | getLocal v | setLocal v | boundsCheck v | ifOp v | elseOp v | loop v | endLoop v |
      «break» v | breakIf v | isStruct v | trap v =>
    have hv : v < 2 ^ 16 := hw
    cases h
    simp only [opcodeIdOf, decodeOperand, OpcodeRecord.operandU16,
      OpcodeRecord.fromIdAndOperand_b1, OpcodeRecord.fromIdAndOperand_b2, u16FromLe_leByte hv,
      Op.cutData]
  case wordToFixed n | fixedToWord n | fixedMul n | fixedDiv n | checkedMul n | checkedDiv n |
      pushImmediate n | popN n =>
    have hn : n < 2 ^ 8 := hw
    cases h
    simp only [opcodeIdOf, decodeOperand, OpcodeRecord.operandU8,
      OpcodeRecord.fromIdAndOperand_b1, toNat_leByte_zero hn, Op.cutData]
  case getData v | setData v =>
    cases h
    simp only [opcodeIdOf, decodeOperand, OpcodeRecord.operandU24,
      OpcodeRecord.fromIdAndOperand_b1, OpcodeRecord.fromIdAndOperand_b2,
      OpcodeRecord.fromIdAndOperand_b3, u32FromLe_leByte, Op.cutData]
  case call c n | callVerifiedNative c n | callExternalNative c n =>
    obtain ⟨hc, hn⟩ : c < 2 ^ 16 ∧ n < 2 ^ 8 := hw
    cases h
    simp only [opcodeIdOf, decodeOperand, OpcodeRecord.operandU16,
      OpcodeRecord.fromIdAndOperand_b1, OpcodeRecord.fromIdAndOperand_b2,
      OpcodeRecord.fromIdAndOperand_b3, u16FromLe_leByte hc, toNat_leByte_zero hn, Op.cutData]
  case getDataIndexed a b | setDataIndexed a b =>
    simp only [opcodeIdOf, decodeOperand, decodePoolU24U24_spilled h, Op.cutData]
    rfl
  case isEnum a b d =>
    simp only [opcodeIdOf, decodeOperand, decodePoolU16U16U16_spilled hw.1 hw.2.1 hw.2.2 h,
      Op.cutData]
    rfl
  case newComposite comp =>
    simp only [opcodeIdOf, decodeOperand, decodeNewComposite_encodeOperand hw h, Op.cutData]
    rfl
  case getIndex elem =>
    simp only [opcodeIdOf, decodeOperand, decodeGetIndex_encodeOperand hw h, Op.cutData]
    rfl
  case getField field =>
    have hfield : decodeGetField (.fromIdAndOperand 38 operand) (pool' ++ more) = .ok field := by
      cases field with
      | flat offset kind => cases h; exact decodeField_flat kind hw
      | flatNested offset size variant => exact decodeField_nested hw.1 hw.2 h
      | boxed nameConst =>
        cases h
        exact decodeField_boxed.trans
          (congrArg (fun v => Except.ok (StructField.boxed v)) (u16FromLe_leByte hw))
    simp only [opcodeIdOf, decodeOperand, hfield, Op.cutData]
    rfl
  case getTupleField field =>
    have hfield : decodeGetTupleField (.fromIdAndOperand 40 operand) (pool' ++ more) =
        .ok field := by
      cases field with
      | flat offset kind => cases h; exact decodeField_flat kind hw
      | flatNested offset size variant => exact decodeField_nested hw.1 hw.2 h
      | boxed index =>
        cases h
        exact decodeField_boxed.trans
          (congrArg (fun v => Except.ok (TupleField.boxed v)) (toNat_leByte_zero hw))
    simp only [opcodeIdOf, decodeOperand, hfield, Op.cutData]
    rfl
  case getEnumField field =>
    have hfield : decodeGetEnumField (.fromIdAndOperand 41 operand) (pool' ++ more) =
        .ok field := by
      cases field with
      | flat offset kind => cases h; exact decodeField_flat kind hw
      | flatNested offset size variant => exact decodeField_nested hw.1 hw.2 h
      | boxed index =>
        cases h
        exact decodeField_boxed.trans
          (congrArg (fun v => Except.ok (EnumField.boxed v)) (toNat_leByte_zero hw))
    simp only [opcodeIdOf, decodeOperand, hfield, Op.cutData]
    rfl
  all_goals
    cases h
    rfl

end Decoding

/-- A record that was encoded carries the operand bytes under the identifier of its opcode. -/
theorem encodeOp_ok {op : Op} {pool pool' : OperandPool} {record : OpcodeRecord}
    (h : encodeOp op pool = .ok (record, pool')) :
    ∃ operand, encodeOperand pool op = .ok (operand, pool') ∧
      record = .fromIdAndOperand (opcodeIdOf op) operand := by
  cases henc : encodeOperand pool op with
  | error e =>
    rw [encodeOp, henc] at h
    cases h
  | ok result =>
    obtain ⟨operand, after⟩ := result
    rw [encodeOp, henc] at h
    cases h
    exact ⟨operand, rfl, rfl⟩

/-- **Decoding inverts encoding.** Against any extension of the pool that the encoding left, the
record stands for the instruction, its data segment operands cut to 24 bits. -/
theorem decodeOp_encodeOp {op : Op} {pool pool' : OperandPool} {record : OpcodeRecord}
    (hw : Op.InWidth op) (h : encodeOp op pool = .ok (record, pool')) (more : OperandPool) :
    decodeOp record (pool' ++ more) = .ok (Op.cutData op) := by
  obtain ⟨operand, henc, rfl⟩ := encodeOp_ok h
  rw [decodeOp, OpcodeRecord.checkParity_fromIdAndOperand,
    OpcodeRecord.opcodeId_fromIdAndOperand operand (opcodeIdOf_lt op)]
  exact decodeOperand_encodeOperand hw henc

/-! ## Instruction sequences -/

/-- Encoding appends to the pool. -/
theorem encodeOp_extends {op : Op} {pool pool' : OperandPool} {record : OpcodeRecord}
    (h : encodeOp op pool = .ok (record, pool')) : pool <+: pool' := by
  obtain ⟨operand, henc, rfl⟩ := encodeOp_ok h
  have hspill {entry : OperandPoolEntry} (hs : spill pool entry = .ok (operand, pool')) :
      pool <+: pool' := (spill_ok hs).1 ▸ List.prefix_append ..
  have hmarked {entry : OperandPoolEntry} {mark : Byte}
      (hs : spillMarked pool entry mark = .ok (operand, pool')) : pool <+: pool' :=
    (spillMarked_ok hs).1 ▸ List.prefix_append ..
  cases op
  case getDataIndexed | setDataIndexed | isEnum => exact hspill henc
  case getField field | getTupleField field | getEnumField field | getIndex field =>
    cases field
    case flatNested => exact hmarked henc
    all_goals
      cases henc
      exact List.prefix_rfl
  case newComposite comp =>
    simp only [encodeOperand] at henc
    split_ifs at henc
    · cases henc
      exact List.prefix_rfl
    · exact hmarked henc
  all_goals
    cases henc
    exact List.prefix_rfl

theorem encodeOps_extends {ops : List Op} {pool pool' : OperandPool}
    {records : List OpcodeRecord} (h : encodeOps pool ops = .ok (records, pool')) :
    pool <+: pool' := by
  induction ops generalizing pool records with
  | nil =>
    cases h
    exact List.prefix_rfl
  | cons op ops ih =>
    cases hop : encodeOp op pool with
    | error e =>
      rw [encodeOps, hop] at h
      cases h
    | ok result =>
      obtain ⟨record, after⟩ := result
      cases hops : encodeOps after ops with
      | error e =>
        simp only [encodeOps, hop, bind, Except.bind, hops] at h
        cases h
      | ok rest =>
        obtain ⟨tail, final⟩ := rest
        simp only [encodeOps, hop, bind, Except.bind, hops] at h
        cases h
        exact (encodeOp_extends hop).trans (ih hops)

/-- The records of a chunk are read back against any extension of the pool after it, so against
the final pool of the module. -/
theorem decodeOps_encodeOps {ops : List Op} {pool pool' : OperandPool}
    {records : List OpcodeRecord} (hw : ∀ op ∈ ops, Op.InWidth op)
    (h : encodeOps pool ops = .ok (records, pool')) (more : OperandPool) :
    decodeOps (pool' ++ more) records = .ok (ops.map Op.cutData) := by
  induction ops generalizing pool records with
  | nil =>
    cases h
    rfl
  | cons op ops ih =>
    cases hop : encodeOp op pool with
    | error e =>
      rw [encodeOps, hop] at h
      cases h
    | ok result =>
      obtain ⟨record, after⟩ := result
      cases hops : encodeOps after ops with
      | error e =>
        simp only [encodeOps, hop, bind, Except.bind, hops] at h
        cases h
      | ok rest =>
        obtain ⟨tail, final⟩ := rest
        simp only [encodeOps, hop, bind, Except.bind, hops] at h
        cases h
        -- The first record's entry lies in the prefix of the pool that the rest leaves alone.
        obtain ⟨entries, rfl⟩ := encodeOps_extends hops
        have hhead : decodeOp record (after ++ entries ++ more) = .ok (Op.cutData op) := by
          rw [List.append_assoc]
          exact decodeOp_encodeOp (hw op List.mem_cons_self) hop _
        have htail := ih (fun op hmem => hw op (List.mem_cons_of_mem _ hmem)) hops
        rw [decodeOps] at htail
        simp only [decodeOps, List.mapM_cons, hhead, htail, bind, Except.bind]
        rfl

/-! ## The operands that do not fit -/

/-- **What is read back is the instruction exactly when its data operands fit.** The operands of
every other opcode are kept: in the record, out of line, or the encoding is refused. -/
theorem decodeOp_encodeOp_iff (op : Op) (pool : OperandPool) (record : OpcodeRecord)
    (pool' : OperandPool) (hw : Op.InWidth op) (h : encodeOp op pool = .ok (record, pool'))
    (more : OperandPool) : decodeOp record (pool' ++ more) = .ok op ↔ Op.DataFits op := by
  rw [decodeOp_encodeOp hw h more, Except.ok.injEq, Op.cutData_eq_self]

theorem decodeOp_encodeOp_nested :
    decodeOp ⟨0x29, 0, 0, 0xF2⟩ [⟨0x01, 0x0D, 8, 0, 4, 0, 0, 0⟩] =
      .ok (.getEnumField (.flatNested 8 4 .struct)) :=
  (decodeOp_encodeOp_iff (.getEnumField (.flatNested 8 4 .struct)) [] ⟨0x29, 0, 0, 0xF2⟩
    [⟨0x01, 0x0D, 8, 0, 4, 0, 0, 0⟩] ⟨by decide, by decide⟩ (by decide) []).mpr trivial

/-- The slot `2 ^ 24` is read back as slot 0, so decoding does not invert encoding on every
instruction. -/
theorem getData_cut :
    ¬ ∀ (op : Op) (pool pool' more : OperandPool) (record : OpcodeRecord), Op.InWidth op →
      encodeOp op pool = .ok (record, pool') → decodeOp record (pool' ++ more) = .ok op := by
  intro h
  have hread : decodeOp ⟨0x03, 0, 0, 0⟩ [] = .ok (.getData (2 ^ 24)) :=
    h (.getData (2 ^ 24)) [] [] [] ⟨0x03, 0, 0, 0⟩ (show 2 ^ 24 < 2 ^ 32 by decide) (by decide)
  exact absurd hread (by decide)

end Keleusma.Framing
