import Keleusma.Logic.ErrorCorrection
import Keleusma.Logic.LittleEndian
import Keleusma.Logic.Overflow

/-!
# Layout of a container

A container starts with three copies of a prologue and three copies of a directory; the payloads of
its regions follow, each padded to a whole number of words. This module has the scalars a container
is made of, the check of the prologue and the entries of the directory.
-/

namespace KeleusmaWire

open Overflow

abbrev Byte : Type := BitVec 8

/-! ## Constants -/

/-- Bytes per word. -/
def word : ℕ := 8

/-- The first bytes of a container. -/
def magic : BitVec 32 := 0x4B415558

/-- The mark of the byte order. -/
def bom : BitVec 16 := 0xFEFF

/-- The version of the format. -/
def formatVersion : BitVec 16 := 2

/-- The length of one copy of the prologue. -/
def prologueBytes : ℕ := 16

/-- The length of an entry of the directory. -/
def dirEntryBytes : ℕ := 16

/-- The number of copies of the prologue and of the directory. -/
def copies : ℕ := 3

/-- Where the first copy of the directory starts. -/
def directoryOffset : ℕ := prologueBytes * copies

/-- The most regions of a container. -/
def maxRegions : ℕ := 1024

/-- A parity plane covers the region. -/
def flagEccPresent : BitVec 16 := 1 <<< 1

/-- The region is a parity plane. -/
def flagIsEcc : BitVec 16 := 1 <<< 3

/-! ## Scalars -/

/-- The byte at a position that is known to be in range. -/
def byteAt (b : List Byte) (pos : ℕ) : Byte := b.getD pos 0

/-- Whether `n` bytes from `pos` lie inside. -/
def has (b : List Byte) (pos n : ℕ) : Bool := pos ≤ b.length && n ≤ b.length - pos

/-- The 16-bit number at a position. -/
def u16At (b : List Byte) (pos : ℕ) : Option (BitVec 16) :=
  if has b pos 2 then
    some ((byteAt b pos).setWidth 16 + (byteAt b (pos + 1)).setWidth 16 * 256)
  else none

/-- The 32-bit number at a position. -/
def u32At (b : List Byte) (pos : ℕ) : Option (BitVec 32) :=
  if has b pos 4 then
    some ((byteAt b pos).setWidth 32 + (byteAt b (pos + 1)).setWidth 32 * 256 +
      (byteAt b (pos + 2)).setWidth 32 * 65536 + (byteAt b (pos + 3)).setWidth 32 * 16777216)
  else none

/-- The 64-bit number at a position. -/
def u64At (b : List Byte) (pos : ℕ) : Option (BitVec 64) :=
  if has b pos 8 then
    some ((byteAt b pos).setWidth 64 + (byteAt b (pos + 1)).setWidth 64 * 256 +
      (byteAt b (pos + 2)).setWidth 64 * 65536 + (byteAt b (pos + 3)).setWidth 64 * 16777216 +
      (byteAt b (pos + 4)).setWidth 64 * 4294967296 +
      (byteAt b (pos + 5)).setWidth 64 * 1099511627776 +
      (byteAt b (pos + 6)).setWidth 64 * 281474976710656 +
      (byteAt b (pos + 7)).setWidth 64 * 72057594037927936)
  else none

/-- The two bytes of a number, the lowest first. -/
def u16Bytes (v : BitVec 16) : List Byte := [(v % 256).setWidth 8, (v / 256 % 256).setWidth 8]

/-- The four bytes of a number, the lowest first. -/
def u32Bytes (v : BitVec 32) : List Byte :=
  [(v % 256).setWidth 8, (v / 256 % 256).setWidth 8, (v / 65536 % 256).setWidth 8,
    (v / 16777216 % 256).setWidth 8]

/-- The eight bytes of a number, the lowest first. -/
def u64Bytes (v : BitVec 64) : List Byte :=
  [(v % 256).setWidth 8, (v / 256 % 256).setWidth 8, (v / 65536 % 256).setWidth 8,
    (v / 16777216 % 256).setWidth 8, (v / 4294967296 % 256).setWidth 8,
    (v / 1099511627776 % 256).setWidth 8, (v / 281474976710656 % 256).setWidth 8,
    (v / 72057594037927936 % 256).setWidth 8]

/-- The bitwise majority of three bytes. -/
def maj3 (a b c : Byte) : Byte := ErrorCorrection.majority a b c

/-! ## The check of the prologue -/

/-- The reversed polynomial. -/
def poly : BitVec 32 := 0xEDB88320

/-- One bit of the check. -/
def crcStep (crc : BitVec 32) : BitVec 32 :=
  let mask := -(crc &&& 1)
  (crc >>> 1) ^^^ (poly &&& mask)

/-- The CRC-32. -/
def crc32 (bytes : List Byte) : BitVec 32 :=
  ~~~ bytes.foldl (fun crc byte => crcStep^[8] (crc ^^^ byte.setWidth 32)) 0xFFFFFFFF

/-! ## Regions -/

/-- An entry of the directory. -/
structure Region where
  kind : BitVec 16
  flags : BitVec 16
  /-- Where the payload starts, in words. -/
  wordOffset : BitVec 32
  wordLength : BitVec 32
  /-- The kind of the region that a parity plane protects. -/
  covers : BitVec 16
  deriving DecidableEq, Repr

namespace Region

/-- Where the payload starts, unless that overflows. -/
def byteOffset (usizeBits : ℕ) (r : Region) : Option ℕ :=
  checkedMul usizeBits (r.wordOffset.toNat % 2 ^ usizeBits) word

/-- The length of the payload, unless that overflows. -/
def byteLength (usizeBits : ℕ) (r : Region) : Option ℕ :=
  checkedMul usizeBits (r.wordLength.toNat % 2 ^ usizeBits) word

/-- The region is a plane of check bytes. -/
def isEccPlane (r : Region) : Bool := r.flags &&& flagIsEcc != 0

/-- The region has a plane of check bytes. -/
def hasEcc (r : Region) : Bool := r.flags &&& flagEccPresent != 0

end Region

/-- The number of words for so many bytes, unless it overflows. -/
def wordsFor (usizeBits bytes : ℕ) : Option ℕ :=
  (checkedAdd usizeBits bytes (word - 1)).map (· / word)

/-- The length of the prologues and directories together. -/
def headerBytes (usizeBits regionCount : ℕ) : Option ℕ := do
  let entries ← checkedMul usizeBits regionCount dirEntryBytes
  checkedAdd usizeBits (← checkedMul usizeBits entries copies) directoryOffset

theorem headerBytes_eq_some {bits n h : ℕ} :
    headerBytes bits n = some h ↔ h < 2 ^ bits ∧ h = 48 * n + 48 := by
  have hoff : directoryOffset = 48 := rfl
  simp only [headerBytes, bind, Option.bind_eq_some_iff, checkedMul_eq_some, checkedAdd_eq_some,
    dirEntryBytes, copies, hoff]
  constructor
  · rintro ⟨_, ⟨_, rfl⟩, _, ⟨_, rfl⟩, h, rfl⟩
    exact ⟨h, by omega⟩
  · rintro ⟨h, rfl⟩
    exact ⟨_, ⟨by omega, rfl⟩, _, ⟨by omega, rfl⟩, by omega, by omega⟩

/-- Why an artifact could not be read or built. -/
inductive WireError
  | truncated | badMagic | foreignEndian | unsupportedVersion (found : BitVec 16)
  | badPrologueChecksum | tooManyRegions (found : BitVec 32)
  | regionOutOfBounds (index : ℕ) | duplicateRegion (kind : BitVec 16) | overflow | tooLarge
  | badRecordStride
  /-- An index out of range, which panics. -/
  | panicked
  deriving DecidableEq, Repr

/-! ## What the scalars read and write -/

@[simp] theorem length_u16Bytes (v : BitVec 16) : (u16Bytes v).length = 2 := rfl

@[simp] theorem length_u32Bytes (v : BitVec 32) : (u32Bytes v).length = 4 := rfl

@[simp] theorem length_u64Bytes (v : BitVec 64) : (u64Bytes v).length = 8 := rfl

/-- The bytes between two positions. -/
def slice (b : List Byte) (pos n : ℕ) : List Byte := (b.drop pos).take n

theorem getElem?_slice (b : List Byte) (pos n i : ℕ) :
    (slice b pos n)[i]? = if i < n then b[pos + i]? else none := by
  rw [slice, List.getElem?_take, List.getElem?_drop]

theorem length_slice {b : List Byte} {pos n : ℕ} (h : pos + n ≤ b.length) :
    (slice b pos n).length = n := by
  rw [slice, List.length_take, List.length_drop]
  omega

theorem slice_append (pre l post : List Byte) :
    slice (pre ++ (l ++ post)) pre.length l.length = l := by
  rw [slice, List.drop_left, List.take_left]

theorem byteAt_slice {b : List Byte} {pos n i : ℕ} (h : i < n) :
    byteAt (slice b pos n) i = byteAt b (pos + i) := by
  rw [byteAt, byteAt, List.getD_eq_getElem?_getD, List.getD_eq_getElem?_getD, getElem?_slice,
    if_pos h]

theorem byteAt_set_ne {b : List Byte} {pos i : ℕ} (x : Byte) (h : i ≠ pos) :
    byteAt (b.set pos x) i = byteAt b i := by
  rw [byteAt, byteAt, List.getD_eq_getElem?_getD, List.getD_eq_getElem?_getD,
    List.getElem?_set_ne h.symm]

theorem byteAt_set_self {b : List Byte} {pos : ℕ} (x : Byte) (h : pos < b.length) :
    byteAt (b.set pos x) pos = x := by
  rw [byteAt, List.getD_eq_getElem?_getD, List.getElem?_set_self h, Option.getD_some]

theorem slice_eq_map {b : List Byte} {pos n : ℕ} (h : pos + n ≤ b.length) :
    slice b pos n = (List.range n).map fun i => byteAt b (pos + i) := by
  apply List.ext_getElem
  · rw [length_slice h, List.length_map, List.length_range]
  · intro i h₁ h₂
    rw [List.getElem_map, List.getElem_range, ← byteAt_slice (n := n), byteAt,
      List.getD_eq_getElem _ _ h₁]
    rwa [length_slice h] at h₁

theorem has_iff {b : List Byte} {pos n : ℕ} (hn : 0 < n) : has b pos n ↔ pos + n ≤ b.length := by
  rw [has, Bool.and_eq_true, decide_eq_true_iff, decide_eq_true_iff]
  omega

/-- **The readers** read the number that the bytes stand for. -/
theorem u16At_eq {b : List Byte} {pos : ℕ} (h : pos + 2 ≤ b.length) :
    u16At b pos = some (BitVec.ofNat 16 (LittleEndian.ofBytes (slice b pos 2))) := by
  rw [u16At, if_pos ((has_iff (by decide)).mpr h), slice_eq_map h]
  have hsum : LittleEndian.ofBytes ((List.range 2).map fun i => byteAt b (pos + i)) =
      (byteAt b (pos + 0)).toNat +
      (byteAt b (pos + 1)).toNat * 256 := by
    simp only [List.range_succ, List.range_zero, List.nil_append, List.cons_append, List.map_cons,
      List.map_nil, LittleEndian.ofBytes]
    omega
  rw [hsum]
  simp only [BitVec.ofNat_add, BitVec.ofNat_mul, BitVec.ofNat_toNat]
  rfl

theorem u32At_eq {b : List Byte} {pos : ℕ} (h : pos + 4 ≤ b.length) :
    u32At b pos = some (BitVec.ofNat 32 (LittleEndian.ofBytes (slice b pos 4))) := by
  rw [u32At, if_pos ((has_iff (by decide)).mpr h), slice_eq_map h]
  have hsum : LittleEndian.ofBytes ((List.range 4).map fun i => byteAt b (pos + i)) =
      (byteAt b (pos + 0)).toNat +
      (byteAt b (pos + 1)).toNat * 256 +
      (byteAt b (pos + 2)).toNat * 65536 +
      (byteAt b (pos + 3)).toNat * 16777216 := by
    simp only [List.range_succ, List.range_zero, List.nil_append, List.cons_append, List.map_cons,
      List.map_nil, LittleEndian.ofBytes]
    omega
  rw [hsum]
  simp only [BitVec.ofNat_add, BitVec.ofNat_mul, BitVec.ofNat_toNat]
  rfl

theorem u64At_eq {b : List Byte} {pos : ℕ} (h : pos + 8 ≤ b.length) :
    u64At b pos = some (BitVec.ofNat 64 (LittleEndian.ofBytes (slice b pos 8))) := by
  rw [u64At, if_pos ((has_iff (by decide)).mpr h), slice_eq_map h]
  have hsum : LittleEndian.ofBytes ((List.range 8).map fun i => byteAt b (pos + i)) =
      (byteAt b (pos + 0)).toNat +
      (byteAt b (pos + 1)).toNat * 256 +
      (byteAt b (pos + 2)).toNat * 65536 +
      (byteAt b (pos + 3)).toNat * 16777216 +
      (byteAt b (pos + 4)).toNat * 4294967296 +
      (byteAt b (pos + 5)).toNat * 1099511627776 +
      (byteAt b (pos + 6)).toNat * 281474976710656 +
      (byteAt b (pos + 7)).toNat * 72057594037927936 := by
    simp only [List.range_succ, List.range_zero, List.nil_append, List.cons_append, List.map_cons,
      List.map_nil, LittleEndian.ofBytes]
    omega
  rw [hsum]
  simp only [BitVec.ofNat_add, BitVec.ofNat_mul, BitVec.ofNat_toNat]
  rfl

theorem u16Bytes_eq (v : BitVec 16) : u16Bytes v = LittleEndian.toBytes 2 v.toNat := by
  simp only [u16Bytes, LittleEndian.toBytes, List.cons.injEq, and_true]
  constructor
  · apply BitVec.eq_of_toNat_eq
    simp
  · apply BitVec.eq_of_toNat_eq
    simp

theorem u32Bytes_eq (v : BitVec 32) : u32Bytes v = LittleEndian.toBytes 4 v.toNat := by
  simp only [u32Bytes, LittleEndian.toBytes, List.cons.injEq, and_true]
  refine ⟨?_, ?_, ?_, ?_⟩
  · apply BitVec.eq_of_toNat_eq
    simp
  · apply BitVec.eq_of_toNat_eq
    simp
  · apply BitVec.eq_of_toNat_eq
    simp
    omega
  · apply BitVec.eq_of_toNat_eq
    simp
    omega

theorem u64Bytes_eq (v : BitVec 64) : u64Bytes v = LittleEndian.toBytes 8 v.toNat := by
  simp only [u64Bytes, LittleEndian.toBytes, List.cons.injEq, and_true]
  refine ⟨?_, ?_, ?_⟩
  · apply BitVec.eq_of_toNat_eq
    simp
  · apply BitVec.eq_of_toNat_eq
    simp
  · refine ⟨?_, ?_, ?_, ?_, ?_, ?_⟩
    all_goals
      apply BitVec.eq_of_toNat_eq
      simp
      omega

/-- A reader gets back what its writer wrote. -/
theorem u16At_of_slice {b : List Byte} {pos : ℕ} {v : BitVec 16}
    (h : slice b pos 2 = u16Bytes v) : u16At b pos = some v := by
  have hlen : pos + 2 ≤ b.length := by
    have := congrArg List.length h
    rw [length_u16Bytes, slice, List.length_take, List.length_drop] at this
    omega
  rw [u16At_eq hlen, h, u16Bytes_eq, LittleEndian.ofBytes_toBytes v.isLt, BitVec.ofNat_toNat,
    BitVec.setWidth_eq]

theorem u32At_of_slice {b : List Byte} {pos : ℕ} {v : BitVec 32}
    (h : slice b pos 4 = u32Bytes v) : u32At b pos = some v := by
  have hlen : pos + 4 ≤ b.length := by
    have := congrArg List.length h
    rw [length_u32Bytes, slice, List.length_take, List.length_drop] at this
    omega
  rw [u32At_eq hlen, h, u32Bytes_eq, LittleEndian.ofBytes_toBytes v.isLt, BitVec.ofNat_toNat,
    BitVec.setWidth_eq]

theorem u64At_of_slice {b : List Byte} {pos : ℕ} {v : BitVec 64}
    (h : slice b pos 8 = u64Bytes v) : u64At b pos = some v := by
  have hlen : pos + 8 ≤ b.length := by
    have := congrArg List.length h
    rw [length_u64Bytes, slice, List.length_take, List.length_drop] at this
    omega
  rw [u64At_eq hlen, h, u64Bytes_eq, LittleEndian.ofBytes_toBytes v.isLt, BitVec.ofNat_toNat,
    BitVec.setWidth_eq]

end KeleusmaWire
