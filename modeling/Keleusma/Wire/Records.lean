import Keleusma.Wire.Build
import Keleusma.Wire.View

/-!
# Records and pools

A region is read as a table of records of one stride or as a pool of bytes. A record that was pushed
is read back at its index (`RecordTable.getAs_flatMap`).
-/

namespace KeleusmaWire

open Overflow

/-- A record that can be read: `readRecord` refuses a slice shorter than the stride. -/
class WireCodec (T : Type) extends WireRecord T where
  readRecord : List Byte → Option T

/-- A region viewed as fixed-size records. -/
structure RecordTable where
  bytes : List Byte
  stride : ℕ

namespace RecordTable

/-- The number of whole records. -/
def len (t : RecordTable) : ℕ := t.bytes.length / t.stride

/-- The bytes of a record. -/
def get (usizeBits : ℕ) (t : RecordTable) (index : ℕ) : Option (List Byte) := do
  let start ← checkedMul usizeBits index t.stride
  let stop ← checkedAdd usizeBits start t.stride
  if stop ≤ t.bytes.length then some (slice t.bytes start t.stride) else none

/-- A record, decoded. -/
def getAs (T : Type) [WireCodec T] (usizeBits : ℕ) (t : RecordTable) (index : ℕ) : Option T :=
  if t.stride ≠ WireRecord.stride T then none
  else (t.get usizeBits index).bind WireCodec.readRecord

/-- A range of records lies strictly after the record at a position, and inside the table. -/
def rangeIsForward (usizeBits : ℕ) (t : RecordTable) (pos first count : ℕ) : Bool :=
  match checkedAdd usizeBits first count with
  | none => false
  | some stop => pos < first && stop ≤ t.len

theorem rangeIsForward_iff {usizeBits : ℕ} {t : RecordTable} {pos first count : ℕ} :
    t.rangeIsForward usizeBits pos first count ↔
      first + count < 2 ^ usizeBits ∧ pos < first ∧ first + count ≤ t.len := by
  rw [rangeIsForward, checkedAdd]
  split_ifs with h
  · simp [h]
  · simp [h]

end RecordTable

/-- A region viewed as a pool of bytes. -/
structure Pool where
  bytes : List Byte

/-- A slice of the pool, if it lies inside. -/
def Pool.slice (usizeBits : ℕ) (p : Pool) (offset len : BitVec 32) : Option (List Byte) := do
  let stop ← checkedAdd usizeBits offset.toNat len.toNat
  if stop ≤ p.bytes.length then some (KeleusmaWire.slice p.bytes offset.toNat len.toNat) else none

theorem Pool.slice_eq_some {usizeBits : ℕ} {p : Pool} {offset len : BitVec 32} {b : List Byte} :
    p.slice usizeBits offset len = some b ↔
      offset.toNat + len.toNat < 2 ^ usizeBits ∧ offset.toNat + len.toNat ≤ p.bytes.length ∧
        b = KeleusmaWire.slice p.bytes offset.toNat len.toNat := by
  rw [Pool.slice, checkedAdd]
  split_ifs with hstop
  · simp only [Option.bind_eq_bind, Option.bind_some]
    split_ifs with hlen
    · simp [hstop, hlen, eq_comm]
    · simp [hlen]
  · simp [hstop]

namespace WireView

/-- The records of a region. -/
def records (usizeBits : ℕ) (v : WireView) (r : Region) (stride : ℕ) :
    Except WireError RecordTable :=
  if stride = 0 ∨ stride % word ≠ 0 then .error .badRecordStride
  else do
    let bytes ← v.regionBytes usizeBits r
    if bytes.length % stride ≠ 0 then .error .badRecordStride else .ok ⟨bytes, stride⟩

/-- The records of a region, with the stride of their type. -/
def typedRecords (T : Type) [WireCodec T] (usizeBits : ℕ) (v : WireView) (r : Region) :
    Except WireError RecordTable :=
  v.records usizeBits r (WireRecord.stride T)

/-- The region as a pool. -/
def pool (usizeBits : ℕ) (v : WireView) (r : Region) : Except WireError Pool := do
  return ⟨← v.regionBytes usizeBits r⟩

/-- A payload is no longer than the directory says, and its length fits a `usize`. -/
theorem length_regionBytes {bits : ℕ} {v : WireView} {r : Region} {b : List Byte}
    (h : v.regionBytes bits r = .ok b) :
    b.length ≤ 8 * r.wordLength.toNat ∧ b.length < 2 ^ bits := by
  rw [regionBytes] at h
  cases hoff : r.byteOffset bits with
  | none =>
    simp only [hoff] at h
    cases h
  | some start =>
    cases hlen : r.byteLength bits with
    | none =>
      simp only [hoff, hlen] at h
      cases h
    | some len =>
      simp only [hoff, hlen] at h
      split at h
      · cases h
      · split_ifs at h
        cases h
        obtain ⟨hlt, rfl⟩ := checkedMul_eq_some.mp hlen
        have hmod := Nat.mod_le r.wordLength.toNat (2 ^ bits)
        rw [word] at hlt
        rw [slice, List.length_take, word]
        constructor <;> omega

theorem records_ok {bits : ℕ} {v : WireView} {r : Region} {stride : ℕ} {t : RecordTable}
    (h : v.records bits r stride = .ok t) :
    v.regionBytes bits r = .ok t.bytes ∧ t.stride = stride ∧ 0 < stride ∧ stride % 8 = 0 := by
  rw [records] at h
  split_ifs at h with hstride
  rw [not_or, not_not] at hstride
  cases hb : v.regionBytes bits r with
  | error e =>
    rw [hb] at h
    cases h
  | ok b =>
    rw [hb] at h
    simp only [bind, Except.bind] at h
    split_ifs at h
    cases h
    exact ⟨rfl, rfl, Nat.pos_of_ne_zero hstride.1, hstride.2⟩

/-- A table has less than `2 ^ 32` records. -/
theorem len_records_lt {bits : ℕ} {v : WireView} {r : Region} {stride : ℕ} {t : RecordTable}
    (h : v.records bits r stride = .ok t) : t.len < 2 ^ 32 := by
  obtain ⟨hbytes, hstride, hpos, hwhole⟩ := records_ok h
  have hlen := (length_regionBytes hbytes).1
  have hword : 8 ≤ stride := Nat.le_of_dvd hpos (Nat.dvd_of_mod_eq_zero hwhole)
  have hlt := r.wordLength.isLt
  rw [RecordTable.len, hstride, Nat.div_lt_iff_lt_mul hpos]
  have hmul : 2 ^ 32 * 8 ≤ 2 ^ 32 * stride := Nat.mul_le_mul_left _ hword
  omega

end WireView

/-! ## Writing and reading -/

/-- A record whose reader gets back what its writer wrote. -/
class LawfulCodec (T : Type) extends WireCodec T where
  recordBytes : T → List Byte
  stride_pos : 0 < stride
  stride_whole : stride % 8 = 0
  length_recordBytes : ∀ r, (recordBytes r).length = stride
  write_eq : ∀ r, (writeRecord r (List.replicate stride 0#8)).val = recordBytes r
  read_eq : ∀ r, readRecord (recordBytes r) = some r

namespace LawfulCodec

variable {T : Type} [LawfulCodec T]

theorem length_flatMap (rs : List T) :
    (rs.flatMap recordBytes).length = WireRecord.stride T * rs.length := by
  induction rs with
  | nil => rfl
  | cons r rs ih =>
    rw [List.flatMap_cons, List.length_append, length_recordBytes, ih, List.length_cons,
      Nat.mul_succ, Nat.add_comm]

theorem whole_flatMap (rs : List T) : (rs.flatMap recordBytes).length % 8 = 0 := by
  rw [length_flatMap, Nat.mul_mod, stride_whole, Nat.zero_mul, Nat.zero_mod]

end LawfulCodec

/-- Push records one after the other. -/
def WireBuilder.pushRecords {T : Type} [WireRecord T] (b : WireBuilder) (id : ℕ) (rs : List T) :
    WireBuilder :=
  rs.foldl (fun b r => (b.pushRecord id r).2) b

theorem WireBuilder.pushRecords_eq {T : Type} [LawfulCodec T] {b : WireBuilder} {id : ℕ}
    {r : RegionBuf} (h : b.regions[id]? = some r) (rs : List T) :
    b.pushRecords id rs =
      ⟨b.regions.set id { r with bytes := r.bytes ++ rs.flatMap LawfulCodec.recordBytes }⟩ := by
  induction rs generalizing b r with
  | nil =>
    obtain ⟨hid, rfl⟩ := List.getElem?_eq_some_iff.mp h
    rw [List.flatMap_nil, List.append_nil, pushRecords, List.foldl_nil]
    exact congrArg WireBuilder.mk (List.set_getElem_self hid).symm
  | cons x rs ih =>
    have hpush : (b.pushRecord id x).2 =
        ⟨b.regions.set id { r with bytes := r.bytes ++ LawfulCodec.recordBytes x }⟩ := by
      rw [pushRecord, push, h]
      simp only [LawfulCodec.write_eq]
    have hget : (b.regions.set id { r with bytes := r.bytes ++ LawfulCodec.recordBytes x })[id]? =
        some { r with bytes := r.bytes ++ LawfulCodec.recordBytes x } :=
      List.getElem?_set_self (List.getElem?_eq_some_iff.mp h).1
    rw [pushRecords, List.foldl_cons, hpush, ← pushRecords, ih hget, List.set_set,
      List.flatMap_cons, List.append_assoc]

theorem WireBuilder.Reachable.pushRecords {T : Type} [WireRecord T] {b : WireBuilder} {id : ℕ}
    (h : b.Reachable) (rs : List T) : (b.pushRecords id rs).Reachable := by
  induction rs generalizing b with
  | nil => exact h
  | cons r rs ih => exact ih (.pushRecord h)

namespace RecordTable

variable {T : Type} [LawfulCodec T] {usizeBits : ℕ}

/-- The table that the records make up. -/
def ofRecords (rs : List T) : RecordTable :=
  ⟨rs.flatMap LawfulCodec.recordBytes, WireRecord.stride T⟩

@[simp] theorem len_ofRecords (rs : List T) : (ofRecords rs).len = rs.length := by
  rw [len, ofRecords, LawfulCodec.length_flatMap,
    Nat.mul_div_cancel_left _ (LawfulCodec.stride_pos (T := T))]

/-- A record that is read lies inside the table. -/
theorem lt_len_of_getAs {t : RecordTable} {i : ℕ} {r : T}
    (h : t.getAs T usizeBits i = some r) : i < t.len := by
  rw [getAs] at h
  split_ifs at h with hstride
  rw [not_not] at hstride
  obtain ⟨b, hb, -⟩ := Option.bind_eq_some_iff.mp h
  rw [get, Option.bind_eq_bind, Option.bind_eq_some_iff] at hb
  obtain ⟨start, hstart, hb⟩ := hb
  rw [Option.bind_eq_some_iff] at hb
  obtain ⟨stop, hstop, hb⟩ := hb
  obtain ⟨-, rfl⟩ := checkedMul_eq_some.mp hstart
  obtain ⟨-, rfl⟩ := checkedAdd_eq_some.mp hstop
  split_ifs at hb with hlen
  have hpos : 0 < t.stride := by
    rw [hstride]
    exact LawfulCodec.stride_pos
  rw [len, Nat.lt_iff_add_one_le, Nat.le_div_iff_mul_le hpos, Nat.succ_mul]
  exact hlen

theorem slice_flatMap (rs : List T) {i : ℕ} {r : T} (h : rs[i]? = some r) :
    slice (rs.flatMap LawfulCodec.recordBytes) (i * WireRecord.stride T) (WireRecord.stride T) =
      LawfulCodec.recordBytes r := by
  obtain ⟨hi, rfl⟩ := List.getElem?_eq_some_iff.mp h
  have hsplit : rs.flatMap LawfulCodec.recordBytes =
      (rs.take i).flatMap LawfulCodec.recordBytes ++ (LawfulCodec.recordBytes rs[i] ++
        (rs.drop (i + 1)).flatMap LawfulCodec.recordBytes) := by
    rw [← List.flatMap_cons, ← List.drop_eq_getElem_cons hi, ← List.flatMap_append,
      List.take_append_drop]
  have hpos : i * WireRecord.stride T =
      ((rs.take i).flatMap LawfulCodec.recordBytes).length := by
    rw [LawfulCodec.length_flatMap, List.length_take_of_le (Nat.le_of_lt hi), Nat.mul_comm]
  have hlen : WireRecord.stride T = (LawfulCodec.recordBytes rs[i]).length :=
    (LawfulCodec.length_recordBytes _).symm
  rw [hpos, hsplit, hlen]
  exact slice_append _ _ _

/-- **A record is read back at its index**, and nothing is read beyond the last one. -/
theorem getAs_ofRecords (rs : List T) (hsize : WireRecord.stride T * rs.length < 2 ^ usizeBits)
    (i : ℕ) : (ofRecords rs).getAs T usizeBits i = rs[i]? := by
  have hstride : (ofRecords rs).stride = WireRecord.stride T := rfl
  have hlen : (ofRecords rs).bytes.length = WireRecord.stride T * rs.length :=
    LawfulCodec.length_flatMap rs
  have hpos := LawfulCodec.stride_pos (T := T)
  rw [getAs, hstride, if_neg (not_not.mpr rfl), get, hstride, hlen]
  cases hr : rs[i]? with
  | none =>
    have hi := List.getElem?_eq_none_iff.mp hr
    have hmul : WireRecord.stride T * rs.length ≤ i * WireRecord.stride T := by
      rw [Nat.mul_comm]
      exact Nat.mul_le_mul_right _ hi
    rw [checkedMul]
    split_ifs with hstart
    · simp only [Option.bind_eq_bind, Option.bind_some]
      rw [checkedAdd]
      split_ifs with hstop
      · simp only [Option.bind_some, if_neg (show ¬ i * WireRecord.stride T + WireRecord.stride T ≤
          WireRecord.stride T * rs.length by omega), Option.bind_none]
      · rfl
    · rfl
  | some r =>
    have hi := (List.getElem?_eq_some_iff.mp hr).1
    have hmul : i * WireRecord.stride T + WireRecord.stride T ≤
        WireRecord.stride T * rs.length := by
      rw [← Nat.succ_mul, Nat.mul_comm]
      exact Nat.mul_le_mul_left _ hi
    have hstart : checkedMul usizeBits i (WireRecord.stride T) =
        some (i * WireRecord.stride T) := checkedMul_eq_some.mpr ⟨by omega, rfl⟩
    have hstop : checkedAdd usizeBits (i * WireRecord.stride T) (WireRecord.stride T) =
        some (i * WireRecord.stride T + WireRecord.stride T) :=
      checkedAdd_eq_some.mpr ⟨by omega, rfl⟩
    simp only [hstart, Option.bind_eq_bind, Option.bind_some, hstop, if_pos hmul]
    rw [show (ofRecords rs).bytes = rs.flatMap LawfulCodec.recordBytes from rfl,
      slice_flatMap rs hr, LawfulCodec.read_eq]

end RecordTable

end KeleusmaWire
