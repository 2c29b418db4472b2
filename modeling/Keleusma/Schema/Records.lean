import Keleusma.Wire.Records

/-!
# The records of the schema

What the tables of a module are made of: the records of the constants and of their names, and those
of the data layout, as bytes.
-/

namespace Keleusma.Schema

open KeleusmaWire (Byte LawfulCodec u16At u32At u64At u16Bytes u32Bytes u64Bytes)

namespace Kind

def stringPool : BitVec 16 := 0x0010
def names : BitVec 16 := 0x0011
def consts : BitVec 16 := 0x0012
def structAux : BitVec 16 := 0x0013
def enumAux : BitVec 16 := 0x0014
def dataSlots : BitVec 16 := 0x001A
def sharedLayout : BitVec 16 := 0x001B
def privateComposite : BitVec 16 := 0x001C
def dataInit : BitVec 16 := 0x001D

end Kind

namespace Tag

def unit : ℕ := 1
def bool : ℕ := 2
def int : ℕ := 3
def byte : ℕ := 4
def fixed : ℕ := 5
def float : ℕ := 6
def staticStr : ℕ := 7
def tuple : ℕ := 8
def array : ℕ := 9
def struct : ℕ := 10
def enum : ℕ := 11
def none : ℕ := 12

end Tag

namespace VisibilityTag

def sharedSlot : Byte := 1
def privateSlot : Byte := 2

end VisibilityTag

/-- The constant carries a resolved discriminant. -/
def flagHasDiscriminant : BitVec 16 := 1

/-- The sentinel for an absent index. -/
def absent : BitVec 32 := 0xFFFFFFFF

/-- A slice of the string pool. -/
structure NameRef where
  offset : BitVec 32
  length : BitVec 32
  deriving DecidableEq, Repr

/-- One constant: the payload is the bits of a scalar, or the range of a composite's children. -/
structure ConstRecord where
  tag : BitVec 16
  flags : BitVec 16
  aux : BitVec 32
  payload : BitVec 64
  deriving DecidableEq, Repr

/-- The names of a struct constant. -/
structure StructAux where
  typeName : BitVec 32
  fieldNamesFirst : BitVec 32
  deriving DecidableEq, Repr

/-- The names and the discriminant of an enum constant. -/
structure EnumAux where
  typeName : BitVec 32
  variant : BitVec 32
  discriminant : BitVec 64
  deriving DecidableEq, Repr

/-- A run of slots with one name and one visibility. -/
structure DataSlotRecord where
  name : BitVec 32
  visibility : Byte
  reserved : Byte
  run : BitVec 16
  deriving DecidableEq, Repr

/-- A run of shared slots with one kind and one length; `offset` and `firstSlot` are those of its
first slot. -/
structure SharedSlotRecord where
  offset : BitVec 32
  kind : Byte
  reserved : Byte
  len : BitVec 16
  firstSlot : BitVec 32
  run : BitVec 16
  stride : BitVec 16
  deriving DecidableEq, Repr

/-- Where the body of a private composite slot lies in the persistent pool. -/
structure PrivateCompositeRecord where
  slot : BitVec 16
  reserved : BitVec 16
  offset : BitVec 32
  deriving DecidableEq, Repr

/-- The range of the initial values in the constant table. -/
structure DataInitRecord where
  first : BitVec 32
  count : BitVec 32
  deriving DecidableEq, Repr

/-- Whether records with the tag have children. -/
def isCompositeTag (t : BitVec 16) : Bool :=
  t.toNat == Tag.tuple || t.toNat == Tag.array || t.toNat == Tag.struct || t.toNat == Tag.enum

namespace ConstRecord

/-- A range of constants as a payload. -/
def range (first count : BitVec 32) : BitVec 64 :=
  first.setWidth 64 ||| (count.setWidth 64 <<< 32)

/-- The payload as a range of constants. -/
def asRange (r : ConstRecord) : BitVec 32 × BitVec 32 :=
  (r.payload.setWidth 32, (r.payload >>> 32).setWidth 32)

/-- The record has children. -/
def isComposite (r : ConstRecord) : Bool := isCompositeTag r.tag

theorem asRange_range (tag flags : BitVec 16) (aux first count : BitVec 32) :
    (ConstRecord.mk tag flags aux (range first count)).asRange = (first, count) := by
  have hfirst : (range first count).setWidth 32 = first := by
    apply BitVec.eq_of_getLsbD_eq
    intro i hi
    simp [range, hi]
  have hcount : (range first count >>> 32).setWidth 32 = count := by
    apply BitVec.eq_of_getLsbD_eq
    intro i hi
    have hlow : i < 64 := by omega
    have hhigh : 32 + i < 64 := by omega
    simp [range, hi, hlow, hhigh]
  rw [asRange, hfirst, hcount]

end ConstRecord

/-! ## The bytes of the records -/

/-- Write the fields of a record over the front of a slice that is long enough. -/
def writeFields (fields out : List Byte) : {l : List Byte // l.length = out.length} :=
  if h : fields.length ≤ out.length then
    ⟨fields ++ out.drop fields.length, by rw [List.length_append, List.length_drop]; omega⟩
  else ⟨out, rfl⟩

theorem writeFields_replicate {fields : List Byte} {n : ℕ} (h : fields.length = n) :
    (writeFields fields (List.replicate n 0#8)).val = fields := by
  have hlen : fields.length ≤ (List.replicate n 0#8).length := by rw [List.length_replicate, h]
  rw [writeFields, dif_pos hlen]
  show fields ++ (List.replicate n 0#8).drop fields.length = fields
  rw [List.drop_replicate, h, Nat.sub_self, List.replicate_zero, List.append_nil]

namespace NameRef

/-- A slice as bytes. -/
def fields (r : NameRef) : List Byte := u32Bytes r.offset ++ u32Bytes r.length

/-- The slice that bytes stand for. -/
def readRecord (b : List Byte) : Option NameRef :=
  if b.length < 8 then none else do return ⟨← u32At b 0, ← u32At b 4⟩

instance : LawfulCodec NameRef where
  stride := 8
  writeRecord r out := writeFields r.fields out
  readRecord := readRecord
  recordBytes := fields
  stride_pos := by decide
  stride_whole := rfl
  length_recordBytes _ := rfl
  write_eq _ := writeFields_replicate rfl
  read_eq r := by
    have hoffset : u32At r.fields 0 = some r.offset := KeleusmaWire.u32At_of_slice rfl
    have hlength : u32At r.fields 4 = some r.length := KeleusmaWire.u32At_of_slice rfl
    rw [readRecord, if_neg (show ¬ r.fields.length < 8 from Nat.lt_irrefl 8), hoffset, hlength]
    rfl

end NameRef

namespace ConstRecord

/-- A constant as bytes. -/
def fields (r : ConstRecord) : List Byte :=
  u16Bytes r.tag ++ u16Bytes r.flags ++ u32Bytes r.aux ++ u64Bytes r.payload

/-- The constant that bytes stand for. -/
def readRecord (b : List Byte) : Option ConstRecord :=
  if b.length < 16 then none
  else do return ⟨← u16At b 0, ← u16At b 2, ← u32At b 4, ← u64At b 8⟩

instance : LawfulCodec ConstRecord where
  stride := 16
  writeRecord r out := writeFields r.fields out
  readRecord := readRecord
  recordBytes := fields
  stride_pos := by decide
  stride_whole := rfl
  length_recordBytes _ := rfl
  write_eq _ := writeFields_replicate rfl
  read_eq r := by
    have htag : u16At r.fields 0 = some r.tag := KeleusmaWire.u16At_of_slice rfl
    have hflags : u16At r.fields 2 = some r.flags := KeleusmaWire.u16At_of_slice rfl
    have haux : u32At r.fields 4 = some r.aux := KeleusmaWire.u32At_of_slice rfl
    have hpayload : u64At r.fields 8 = some r.payload := KeleusmaWire.u64At_of_slice rfl
    rw [readRecord, if_neg (show ¬ r.fields.length < 16 from Nat.lt_irrefl 16), htag, hflags, haux,
      hpayload]
    rfl

end ConstRecord

namespace StructAux

/-- The names of a struct as bytes. -/
def fields (r : StructAux) : List Byte := u32Bytes r.typeName ++ u32Bytes r.fieldNamesFirst

/-- The names of a struct that bytes stand for. -/
def readRecord (b : List Byte) : Option StructAux :=
  if b.length < 8 then none else do return ⟨← u32At b 0, ← u32At b 4⟩

instance : LawfulCodec StructAux where
  stride := 8
  writeRecord r out := writeFields r.fields out
  readRecord := readRecord
  recordBytes := fields
  stride_pos := by decide
  stride_whole := rfl
  length_recordBytes _ := rfl
  write_eq _ := writeFields_replicate rfl
  read_eq r := by
    have hname : u32At r.fields 0 = some r.typeName := KeleusmaWire.u32At_of_slice rfl
    have hfirst : u32At r.fields 4 = some r.fieldNamesFirst := KeleusmaWire.u32At_of_slice rfl
    rw [readRecord, if_neg (show ¬ r.fields.length < 8 from Nat.lt_irrefl 8), hname, hfirst]
    rfl

end StructAux

namespace EnumAux

/-- The names and the discriminant of an enum as bytes. -/
def fields (r : EnumAux) : List Byte :=
  u32Bytes r.typeName ++ u32Bytes r.variant ++ u64Bytes r.discriminant

/-- The names and the discriminant that bytes stand for. -/
def readRecord (b : List Byte) : Option EnumAux :=
  if b.length < 16 then none else do return ⟨← u32At b 0, ← u32At b 4, ← u64At b 8⟩

instance : LawfulCodec EnumAux where
  stride := 16
  writeRecord r out := writeFields r.fields out
  readRecord := readRecord
  recordBytes := fields
  stride_pos := by decide
  stride_whole := rfl
  length_recordBytes _ := rfl
  write_eq _ := writeFields_replicate rfl
  read_eq r := by
    have hname : u32At r.fields 0 = some r.typeName := KeleusmaWire.u32At_of_slice rfl
    have hvariant : u32At r.fields 4 = some r.variant := KeleusmaWire.u32At_of_slice rfl
    have hdisc : u64At r.fields 8 = some r.discriminant := KeleusmaWire.u64At_of_slice rfl
    rw [readRecord, if_neg (show ¬ r.fields.length < 16 from Nat.lt_irrefl 16), hname, hvariant,
      hdisc]
    rfl

end EnumAux

/-- The byte at a position. -/
def u8At (b : List Byte) (pos : ℕ) : Option Byte := b[pos]?

namespace DataSlotRecord

/-- A run of slots as bytes. -/
def fields (r : DataSlotRecord) : List Byte :=
  u32Bytes r.name ++ [r.visibility] ++ [r.reserved] ++ u16Bytes r.run

/-- The run of slots that bytes stand for. -/
def readRecord (b : List Byte) : Option DataSlotRecord :=
  if b.length < 8 then none else do return ⟨← u32At b 0, ← u8At b 4, ← u8At b 5, ← u16At b 6⟩

instance : LawfulCodec DataSlotRecord where
  stride := 8
  writeRecord r out := writeFields r.fields out
  readRecord := readRecord
  recordBytes := fields
  stride_pos := by decide
  stride_whole := rfl
  length_recordBytes _ := rfl
  write_eq _ := writeFields_replicate rfl
  read_eq r := by
    have hname : u32At r.fields 0 = some r.name := KeleusmaWire.u32At_of_slice rfl
    have hvisibility : u8At r.fields 4 = some r.visibility := rfl
    have hreserved : u8At r.fields 5 = some r.reserved := rfl
    have hrun : u16At r.fields 6 = some r.run := KeleusmaWire.u16At_of_slice rfl
    rw [readRecord, if_neg (show ¬ r.fields.length < 8 from Nat.lt_irrefl 8), hname, hvisibility,
      hreserved, hrun]
    rfl

end DataSlotRecord

namespace SharedSlotRecord

/-- A run of shared slots as bytes. -/
def fields (r : SharedSlotRecord) : List Byte :=
  u32Bytes r.offset ++ [r.kind] ++ [r.reserved] ++ u16Bytes r.len ++ u32Bytes r.firstSlot ++
    u16Bytes r.run ++ u16Bytes r.stride

/-- The run of shared slots that bytes stand for. -/
def readRecord (b : List Byte) : Option SharedSlotRecord :=
  if b.length < 16 then none
  else do
    return ⟨← u32At b 0, ← u8At b 4, ← u8At b 5, ← u16At b 6, ← u32At b 8, ← u16At b 12,
      ← u16At b 14⟩

instance : LawfulCodec SharedSlotRecord where
  stride := 16
  writeRecord r out := writeFields r.fields out
  readRecord := readRecord
  recordBytes := fields
  stride_pos := by decide
  stride_whole := rfl
  length_recordBytes _ := rfl
  write_eq _ := writeFields_replicate rfl
  read_eq r := by
    have hoffset : u32At r.fields 0 = some r.offset := KeleusmaWire.u32At_of_slice rfl
    have hkind : u8At r.fields 4 = some r.kind := rfl
    have hreserved : u8At r.fields 5 = some r.reserved := rfl
    have hlen : u16At r.fields 6 = some r.len := KeleusmaWire.u16At_of_slice rfl
    have hfirst : u32At r.fields 8 = some r.firstSlot := KeleusmaWire.u32At_of_slice rfl
    have hrun : u16At r.fields 12 = some r.run := KeleusmaWire.u16At_of_slice rfl
    have hstride : u16At r.fields 14 = some r.stride := KeleusmaWire.u16At_of_slice rfl
    rw [readRecord, if_neg (show ¬ r.fields.length < 16 from Nat.lt_irrefl 16), hoffset, hkind,
      hreserved, hlen, hfirst, hrun, hstride]
    rfl

end SharedSlotRecord

namespace PrivateCompositeRecord

/-- The place of a private composite as bytes. -/
def fields (r : PrivateCompositeRecord) : List Byte :=
  u16Bytes r.slot ++ u16Bytes r.reserved ++ u32Bytes r.offset

/-- The place of a private composite that bytes stand for. -/
def readRecord (b : List Byte) : Option PrivateCompositeRecord :=
  if b.length < 8 then none else do return ⟨← u16At b 0, ← u16At b 2, ← u32At b 4⟩

instance : LawfulCodec PrivateCompositeRecord where
  stride := 8
  writeRecord r out := writeFields r.fields out
  readRecord := readRecord
  recordBytes := fields
  stride_pos := by decide
  stride_whole := rfl
  length_recordBytes _ := rfl
  write_eq _ := writeFields_replicate rfl
  read_eq r := by
    have hslot : u16At r.fields 0 = some r.slot := KeleusmaWire.u16At_of_slice rfl
    have hreserved : u16At r.fields 2 = some r.reserved := KeleusmaWire.u16At_of_slice rfl
    have hoffset : u32At r.fields 4 = some r.offset := KeleusmaWire.u32At_of_slice rfl
    rw [readRecord, if_neg (show ¬ r.fields.length < 8 from Nat.lt_irrefl 8), hslot, hreserved,
      hoffset]
    rfl

end PrivateCompositeRecord

namespace DataInitRecord

/-- The range of the initial values as bytes. -/
def fields (r : DataInitRecord) : List Byte := u32Bytes r.first ++ u32Bytes r.count

/-- The range of the initial values that bytes stand for. -/
def readRecord (b : List Byte) : Option DataInitRecord :=
  if b.length < 8 then none else do return ⟨← u32At b 0, ← u32At b 4⟩

instance : LawfulCodec DataInitRecord where
  stride := 8
  writeRecord r out := writeFields r.fields out
  readRecord := readRecord
  recordBytes := fields
  stride_pos := by decide
  stride_whole := rfl
  length_recordBytes _ := rfl
  write_eq _ := writeFields_replicate rfl
  read_eq r := by
    have hfirst : u32At r.fields 0 = some r.first := KeleusmaWire.u32At_of_slice rfl
    have hcount : u32At r.fields 4 = some r.count := KeleusmaWire.u32At_of_slice rfl
    rw [readRecord, if_neg (show ¬ r.fields.length < 8 from Nat.lt_irrefl 8), hfirst, hcount]
    rfl

end DataInitRecord

end Keleusma.Schema
