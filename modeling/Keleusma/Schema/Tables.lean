import Keleusma.Bytecode.Program
import Keleusma.Schema.Records

/-!
# The constant tables

A forest of constants becomes fixed-size records. The roots come first, in order, and the children
of every composite follow in breadth-first order, so that a composite refers to its children by a
range of later records. Names and strings are slices of a pool: `intern` shares a name that the pool
already has, and `internFresh` appends it again, so that the names of a struct's fields stand in a
row.
-/

namespace Keleusma.Schema

open KeleusmaWire (Byte WireBuilder WireError)

/-! ## Strings -/

/-- The bytes of a string. -/
def utf8 (s : String) : List Byte := s.toUTF8.data.toList.map UInt8.toBitVec

/-- The string that the bytes encode, if they encode one. -/
def fromUtf8 (bytes : List Byte) : Option String :=
  String.fromUTF8? ⟨(bytes.map UInt8.ofBitVec).toArray⟩

@[simp] theorem fromUtf8_utf8 (s : String) : fromUtf8 (utf8 s) = some s := by
  have hbytes : (utf8 s).map UInt8.ofBitVec = s.toUTF8.data.toList := by
    rw [utf8, List.map_map]
    exact List.map_id _
  have hvalid : (⟨s.toUTF8.data⟩ : ByteArray).IsValidUTF8 := s.isValidUTF8
  rw [fromUtf8, hbytes, Array.toArray_toList, String.fromUTF8?, dif_pos hvalid]
  rfl

theorem utf8_injective {s t : String} (h : utf8 s = utf8 t) : s = t := by
  have hs := fromUtf8_utf8 s
  rw [h, fromUtf8_utf8] at hs
  exact (Option.some.inj hs).symm

/-! ## Names -/

/-- The string pool, its index table, and the index that a name is shared under. -/
structure Names where
  pool : List Byte
  refs : List NameRef
  index : List (List Byte × BitVec 32)

namespace Names

/-- No names. -/
def empty : Names := ⟨[], [], []⟩

/-- Append a name without sharing it. -/
def internFresh (n : Names) (s : String) : BitVec 32 × Names :=
  let bytes := utf8 s
  let offset := BitVec.ofNat 32 n.pool.length
  let refs := n.refs ++ [⟨offset, BitVec.ofNat 32 bytes.length⟩]
  let idx := BitVec.ofNat 32 (refs.length - 1)
  (idx, ⟨n.pool ++ bytes, refs, (bytes, idx) :: n.index⟩)

/-- The index of a name, which is appended if the pool does not have it. -/
def intern (n : Names) (s : String) : BitVec 32 × Names :=
  match n.index.lookup (utf8 s) with
  | some i => (i, n)
  | none => n.internFresh s

/-- Append names in a row. -/
def internFreshAll (n : Names) (names : List String) : Names :=
  names.foldl (fun n s => (n.internFresh s).2) n

end Names

/-! ## Flattening -/

/-- The constant table and its side tables. -/
structure Tables where
  consts : List ConstRecord
  structAux : List StructAux
  enumAux : List EnumAux

/-- The children that a constant refers to by a range. -/
def children : ConstValue → List ConstValue
  | .tuple items | .array items => items
  | .struct _ fields => fields.map (·.2)
  | .enum _ _ _ fields => fields
  | _ => []

/-- The state of the flattening: `nextIndex` is the index of the next child. -/
structure Flattening where
  nextIndex : BitVec 32
  names : Names
  tables : Tables

namespace Flattening

/-- Append the record of a node that takes a number of children. -/
def push (s : Flattening) (record : ConstRecord) (count : ℕ) : Flattening :=
  { s with
    nextIndex := s.nextIndex + BitVec.ofNat 32 count
    tables := { s.tables with consts := s.tables.consts ++ [record] } }

/-- Append the record of a scalar. -/
def scalar (s : Flattening) (tag : ℕ) (payload : BitVec 64) : Flattening :=
  s.push ⟨BitVec.ofNat 16 tag, 0, 0, payload⟩ 0

/-- Write the record of a node. -/
def visit (s : Flattening) : ConstValue → Flattening
  | .unit => s.scalar Tag.unit 0
  | .none => s.scalar Tag.none 0
  | .bool b => s.scalar Tag.bool (if b then 1 else 0)
  | .int v => s.scalar Tag.int (BitVec.ofInt 64 v)
  | .byte v => s.scalar Tag.byte (BitVec.ofNat 64 v)
  | .fixed v => s.scalar Tag.fixed (BitVec.ofInt 64 v)
  | .float bits => s.scalar Tag.float (BitVec.ofNat 64 bits)
  | .staticStr str =>
    let (idx, names) := s.names.intern str
    { s with names }.push ⟨BitVec.ofNat 16 Tag.staticStr, 0, idx, 0⟩ 0
  | .tuple items =>
    s.push ⟨BitVec.ofNat 16 Tag.tuple, 0, 0,
      ConstRecord.range s.nextIndex (BitVec.ofNat 32 items.length)⟩ items.length
  | .array items =>
    s.push ⟨BitVec.ofNat 16 Tag.array, 0, 0,
      ConstRecord.range s.nextIndex (BitVec.ofNat 32 items.length)⟩ items.length
  | .struct typeName fields =>
    let (typeIdx, names) := s.names.intern typeName
    let namesFirst := BitVec.ofNat 32 names.refs.length
    let names := names.internFreshAll (fields.map (·.1))
    let auxIdx := BitVec.ofNat 32 s.tables.structAux.length
    let tables := { s.tables with structAux := s.tables.structAux ++ [⟨typeIdx, namesFirst⟩] }
    { s with names, tables }.push ⟨BitVec.ofNat 16 Tag.struct, 0, auxIdx,
      ConstRecord.range s.nextIndex (BitVec.ofNat 32 fields.length)⟩ fields.length
  | .enum typeName variant discriminant fields =>
    let (typeIdx, names) := s.names.intern typeName
    let (variantIdx, names) := names.intern variant
    let auxIdx := BitVec.ofNat 32 s.tables.enumAux.length
    let aux : EnumAux := ⟨typeIdx, variantIdx, BitVec.ofInt 64 (discriminant.getD 0)⟩
    let tables := { s.tables with enumAux := s.tables.enumAux ++ [aux] }
    let flags := if discriminant.isSome then flagHasDiscriminant else 0
    { s with names, tables }.push ⟨BitVec.ofNat 16 Tag.enum, flags, auxIdx,
      ConstRecord.range s.nextIndex (BitVec.ofNat 32 fields.length)⟩ fields.length

end Flattening

theorem sizeOf_map_snd (fields : List (String × ConstValue)) :
    ((fields.map (·.2)).map sizeOf).sum < sizeOf fields := by
  induction fields with
  | nil => exact Nat.one_pos
  | cons field fields ih =>
    obtain ⟨name, v⟩ := field
    have hsize : sizeOf v < sizeOf (name, v) := by
      rw [Prod.mk.sizeOf_spec]
      omega
    rw [List.map_cons, List.map_cons, List.sum_cons, List.cons.sizeOf_spec]
    dsimp only
    omega

theorem sizeOf_list (items : List ConstValue) : (items.map sizeOf).sum < sizeOf items := by
  induction items with
  | nil => exact Nat.one_pos
  | cons v items ih =>
    rw [List.map_cons, List.sum_cons, List.cons.sizeOf_spec]
    omega

/-- The children of a constant are smaller together. -/
theorem sizeOf_children (v : ConstValue) : ((children v).map sizeOf).sum < sizeOf v := by
  cases v
  case tuple items | array items =>
    have hitems := sizeOf_list items
    simp only [children, ConstValue.tuple.sizeOf_spec, ConstValue.array.sizeOf_spec]
    omega
  case struct typeName fields =>
    have hfields := sizeOf_map_snd fields
    simp only [children, ConstValue.struct.sizeOf_spec]
    omega
  case enum typeName variant discriminant fields =>
    have hfields := sizeOf_list fields
    simp only [children, ConstValue.enum.sizeOf_spec]
    omega
  all_goals
    simp only [children, List.map_nil, List.sum_nil, ConstValue.unit.sizeOf_spec,
      ConstValue.none.sizeOf_spec, ConstValue.bool.sizeOf_spec, ConstValue.int.sizeOf_spec,
      ConstValue.byte.sizeOf_spec, ConstValue.fixed.sizeOf_spec, ConstValue.float.sizeOf_spec,
      ConstValue.staticStr.sizeOf_spec]
    omega

/-- Write the records of the nodes in the queue, and queue the children of each. -/
def flattenLoop : List ConstValue → Flattening → Flattening
  | [], s => s
  | node :: queue, s => flattenLoop (queue ++ children node) (s.visit node)
termination_by queue => (queue.map sizeOf).sum
decreasing_by
  have hchildren := sizeOf_children node
  rw [List.map_append, List.sum_append, List.map_cons, List.sum_cons]
  omega

/-- Flatten a forest; the roots take the first indices. -/
def flatten (roots : List ConstValue) (names : Names) : Tables × Names :=
  let s := flattenLoop roots ⟨BitVec.ofNat 32 roots.length, names, ⟨[], [], []⟩⟩
  (s.tables, s.names)

/-! ## The artifact -/

/-- A contributor's slice of the constant table: its first index and its length. -/
abbrev ConstRange : Type := BitVec 32 × BitVec 32

/-- The builder of an artifact that carries constants. -/
structure SchemaBuilder where
  b : WireBuilder
  names : Names
  /-- The roots of every contributor, concatenated. -/
  constRoots : List ConstValue
  wantsConstants : Bool

namespace SchemaBuilder

/-- A builder without tables. -/
def new : SchemaBuilder := ⟨.new, .empty, [], false⟩

/-- Add a pool of constants; its range in the shared table is returned. -/
def addConstantPool (s : SchemaBuilder) (roots : List ConstValue) : SchemaBuilder × ConstRange :=
  let first := BitVec.ofNat 32 s.constRoots.length
  ({ s with constRoots := s.constRoots ++ roots, wantsConstants := true },
    (first, BitVec.ofNat 32 roots.length))

/-- Add pools one after the other. -/
def addConstantPools (s : SchemaBuilder) : List (List ConstValue) → SchemaBuilder × List ConstRange
  | [] => (s, [])
  | roots :: pools =>
    let (s, range) := s.addConstantPool roots
    let (s, ranges) := s.addConstantPools pools
    (s, range :: ranges)

/-- Declare a region. -/
def declare (b : WireBuilder) (kind : BitVec 16) : Except WireError (ℕ × WireBuilder) :=
  match b.region kind 0 with
  | (.ok id, b) => .ok (id, b)
  | (.error e, _) => .error e

/-- Flatten the constants into their regions. -/
def emitConstants (s : SchemaBuilder) : Except WireError SchemaBuilder :=
  if s.wantsConstants then do
    let (t, names) := flatten s.constRoots s.names
    let (consts, b) ← declare s.b Kind.consts
    let (saux, b) ← declare b Kind.structAux
    let (eaux, b) ← declare b Kind.enumAux
    let b := b.pushRecords consts t.consts
    let b := b.pushRecords saux t.structAux
    let b := b.pushRecords eaux t.enumAux
    return { s with b, names }
  else .ok s

/-- Emit the artifact, with the string pool and the name table at the end. -/
def finish (usizeBits : ℕ) (s : SchemaBuilder) : Except WireError (List Byte) := do
  let s ← s.emitConstants
  let (pool, b) ← declare s.b Kind.stringPool
  let (names, b) ← declare b Kind.names
  let b := (b.push pool s.names.pool).2
  let b := b.pushRecords names s.names.refs
  b.finish usizeBits

end SchemaBuilder

end Keleusma.Schema
