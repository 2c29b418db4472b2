import Keleusma.Logic.Runs
import Keleusma.Schema.ConstTable

/-!
# The data layout

The slots of the data segment are stored as runs. An array declares one slot for each of its
elements: slots that go on with one name and one visibility share a record, and so do shared slots
that go on with one kind, one length and one distance between their offsets. A record counts at most
65535 slots, and a longer run takes several. Initial values that are all zero are not stored, but
counted.
-/

namespace Keleusma.Schema

open KeleusmaWire (Byte WireError WireView RecordTable)
open Overflow (checkedAdd checkedMul)
open Runs (searchLast)

/-! ## Writing -/

/-- The most slots that a record counts. -/
def u16Max : ℕ := 65535

/-- Cut what is left of a run of `n` slots: where each record starts, and how many slots it
counts. -/
def chunks (n done : ℕ) : List (ℕ × ℕ) :=
  if done < n then
    (done, min (n - done) u16Max) :: chunks n (done + min (n - done) u16Max)
  else []
termination_by n - done
decreasing_by
  have hcap : 0 < u16Max := by decide
  omega

/-- The tag of a visibility. -/
def visibilityTag : SlotVisibility → Byte
  | .sharedSlot => VisibilityTag.sharedSlot
  | .privateSlot => VisibilityTag.privateSlot

/-- How many more slots go on with the name and the visibility of a slot. -/
def slotRun (s : DataSlot) (rest : List DataSlot) : ℕ :=
  (rest.takeWhile fun t => t.name == s.name && t.visibility == s.visibility).length

/-- The records of the slots; the name of every run is interned. -/
def slotRecords : List DataSlot → Names → List DataSlotRecord × Names
  | [], names => ([], names)
  | s :: rest, names =>
    let n := slotRun s rest + 1
    let (name, names) := names.intern s.name
    let (records, names) := slotRecords (rest.drop (n - 1)) names
    ((chunks n 0).map (fun c => ⟨name, visibilityTag s.visibility, 0, BitVec.ofNat 16 c.2⟩) ++
      records, names)
termination_by slots => slots.length
decreasing_by
  rw [List.length_drop, List.length_cons]
  omega

/-- The distance from one offset to another, as machine words. -/
def wrappingSub (x y : ℕ) : ℕ := (BitVec.ofNat 32 x - BitVec.ofNat 32 y).toNat

/-- How many more slots go on with the kind and the length of `a` and with the distance `d`; `p` is
the offset of the slot before. -/
def strideRun (a : SharedSlotLayout) (d : ℕ) : ℕ → List SharedSlotLayout → ℕ
  | _, [] => 0
  | p, c :: rest =>
    if c.kind ≠ a.kind ∨ c.len ≠ a.len ∨ wrappingSub c.offset p ≠ d then 0
    else strideRun a d c.offset rest + 1

/-- How many more slots the run that starts with `a` takes, and its stride. -/
def sharedRun (a : SharedSlotLayout) : List SharedSlotLayout → ℕ × ℕ
  | [] => (0, 0)
  | b :: rest =>
    if b.kind = a.kind ∧ b.len = a.len then
      let d := wrappingSub b.offset a.offset
      if d ≤ u16Max then (strideRun a d b.offset rest + 1, d) else (0, 0)
    else (0, 0)

/-- The records of the shared slots from the index `i` on. -/
def sharedRecords : ℕ → List SharedSlotLayout → List SharedSlotRecord
  | _, [] => []
  | i, a :: rest =>
    let n := (sharedRun a rest).1 + 1
    let stride := (sharedRun a rest).2
    (chunks n 0).map (fun c =>
      { offset := BitVec.ofNat 32 a.offset + BitVec.ofNat 32 c.1 * BitVec.ofNat 32 stride
        kind := BitVec.ofNat 8 a.kind
        reserved := 0
        len := BitVec.ofNat 16 a.len
        firstSlot := BitVec.ofNat 32 (i + c.1)
        run := BitVec.ofNat 16 c.2
        stride := BitVec.ofNat 16 stride }) ++ sharedRecords (i + n) (rest.drop (n - 1))
termination_by _ shared => shared.length
decreasing_by
  rw [List.length_drop, List.length_cons]
  omega

/-- The constant is the default of a private slot. -/
def isDefault : ConstValue → Bool
  | .int n => n == 0
  | _ => false

/-- The initial values are all defaults, and there are some: they are only counted. -/
def privateInitIsElided (layout : DataLayout) : Bool :=
  !layout.privateInit.isEmpty && layout.privateInit.all isDefault

namespace SchemaBuilder

/-- Add the initial values to the constants, unless they are only counted. -/
def addPrivateInit (s : SchemaBuilder) (layout : DataLayout) : SchemaBuilder × ConstRange :=
  if privateInitIsElided layout then (s, (absent, BitVec.ofNat 32 layout.privateInit.length))
  else s.addConstantPool layout.privateInit

/-- Add the layout of the data segment. -/
def addDataLayout (s : SchemaBuilder) (layout : DataLayout) : Except WireError SchemaBuilder := do
  let (s, first, count) := s.addPrivateInit layout
  let (slots, b) ← declare s.b Kind.dataSlots
  let (shared, b) ← declare b Kind.sharedLayout
  let (privcomp, b) ← declare b Kind.privateComposite
  let (init, b) ← declare b Kind.dataInit
  let (records, names) := slotRecords layout.slots s.names
  let b := b.pushRecords slots records
  let b := b.pushRecords shared (sharedRecords 0 layout.sharedLayout)
  let b := b.pushRecords privcomp (layout.privateCompositeLayout.map fun p =>
    PrivateCompositeRecord.mk (BitVec.ofNat 16 p.slot) 0 (BitVec.ofNat 32 p.offset))
  let b := b.pushRecords init [DataInitRecord.mk first count]
  return { s with b, names }

end SchemaBuilder

/-! ## Reading -/

/-- The regions of a data layout. -/
structure DataLayoutTable where
  pool : KeleusmaWire.Pool
  names : RecordTable
  slots : RecordTable
  sharedSlots : RecordTable
  privateComposite : RecordTable
  init : DataInitRecord

/-- Where a shared slot lies in the host's buffer, as a run tells it. -/
structure SharedSlotEntry where
  offset : ℕ
  kind : ℕ
  len : ℕ
  deriving DecidableEq, Repr

namespace DataLayoutTable

section Accessors

variable (bits : ℕ) (t : DataLayoutTable)

/-- A record of slots. -/
def slot (index : ℕ) : Option DataSlotRecord := t.slots.getAs DataSlotRecord bits index

/-- The bytes of the name of a record of slots. -/
def slotName (index : ℕ) : Option (List Byte) := do
  let r ← t.slot bits index
  let n ← t.names.getAs NameRef bits r.name.toNat
  t.pool.slice bits n.offset n.length

/-- A record of shared slots. -/
def sharedRecord (index : ℕ) : Option SharedSlotRecord :=
  t.sharedSlots.getAs SharedSlotRecord bits index

/-- The place of a private composite. -/
def privateCompositeRecord (index : ℕ) : Option PrivateCompositeRecord :=
  t.privateComposite.getAs PrivateCompositeRecord bits index

/-- The offset of the slot of a run after `k` others. -/
def runOffset (r : SharedSlotRecord) (k : ℕ) : Option ℕ := do
  let delta ← checkedMul 32 k r.stride.toNat
  checkedAdd 32 r.offset.toNat delta

/-- Resolve the index of a shared slot. -/
def sharedSlot (slot : ℕ) : Option SharedSlotEntry :=
  if t.sharedSlots.len = 0 then none
  else if 2 ^ 32 ≤ slot then none
  else do
    let r ← searchLast (t.sharedRecord bits) (fun r => r.firstSlot.toNat ≤ slot) 0
      (t.sharedSlots.len - 1) none
    let within ← Overflow.checkedSub slot r.firstSlot.toNat
    if r.run.toNat = 0 ∨ r.run.toNat ≤ within then none
    else
      let offset ← runOffset r within
      return ⟨offset, r.kind.toNat, r.len.toNat⟩

end Accessors

/-- The records of slots name a name, have a tag and count slots. -/
def validateSlots (bits : ℕ) (t : DataLayoutTable) : Except SchemaError Unit :=
  (List.range t.slots.len).forM fun i => do
    let r ← okOr .badIndex (t.slot bits i)
    if t.names.len ≤ r.name.toNat then .error .badIndex
    else if r.visibility ≠ VisibilityTag.sharedSlot ∧ r.visibility ≠ VisibilityTag.privateSlot then
      .error (.unknownTag (r.visibility.setWidth 16))
    else if r.run = 0 then .error (.unknownTag 0)
    else .ok ()

/-- The tables of a container, if it has a data layout. -/
def parse (bits : ℕ) (bytes : List Byte) : Except SchemaError (Option DataLayoutTable) := do
  let view ← inContainer (WireView.parse bits bytes)
  match view.findRegion Kind.dataSlots with
  | none => return none
  | some slotsRegion =>
    let region (kind : BitVec 16) : Except SchemaError KeleusmaWire.Region :=
      okOr (.missingRegion kind) (view.findRegion kind)
    let initTable ← inContainer (view.typedRecords DataInitRecord bits (← region Kind.dataInit))
    let init ← okOr .badIndex (initTable.getAs DataInitRecord bits 0)
    let pool ← inContainer (view.pool bits (← region Kind.stringPool))
    let names ← inContainer (view.typedRecords NameRef bits (← region Kind.names))
    let slots ← inContainer (view.typedRecords DataSlotRecord bits slotsRegion)
    let sharedSlots ←
      inContainer (view.typedRecords SharedSlotRecord bits (← region Kind.sharedLayout))
    let privateComposite ←
      inContainer (view.typedRecords PrivateCompositeRecord bits (← region Kind.privateComposite))
    let t : DataLayoutTable := ⟨pool, names, slots, sharedSlots, privateComposite, init⟩
    t.validateSlots bits
    return some t

/-- The slots of a record. -/
def expandSlots (bits : ℕ) (t : DataLayoutTable) (i : ℕ) : Except SchemaError (List DataSlot) := do
  let r ← okOr .badIndex (t.slot bits i)
  let bytes ← okOr .badName (t.slotName bits i)
  let name ← okOr .badName (fromUtf8 bytes)
  let visibility := if r.visibility = VisibilityTag.sharedSlot then .sharedSlot else .privateSlot
  return List.replicate r.run.toNat ⟨name, visibility⟩

/-- The slots of a run. -/
def expandRun (r : SharedSlotRecord) : Except SchemaError (List SharedSlotLayout) :=
  (List.range r.run.toNat).mapM fun k => do
    let offset ← okOr .badIndex (runOffset r k)
    return ⟨offset, r.kind.toNat, r.len.toNat⟩

/-- The shared slots of a record. -/
def expandShared (bits : ℕ) (t : DataLayoutTable) (i : ℕ) :
    Except SchemaError (List SharedSlotLayout) := do
  let r ← okOr .badIndex (t.sharedRecord bits i)
  if r.run = 0 then .error .badIndex else expandRun r

/-- The place of a private composite as a slot. -/
def expandPrivate (bits : ℕ) (t : DataLayoutTable) (i : ℕ) :
    Except SchemaError PrivateCompositeSlot := do
  let r ← okOr .badIndex (t.privateCompositeRecord bits i)
  return ⟨r.slot.toNat, r.offset.toNat⟩

end DataLayoutTable

/-- Decode one pool. -/
def decodeConstantPool (bits : ℕ) (bytes : List Byte) (range : ConstRange) :
    Except SchemaError (List ConstValue) := do
  let pools ← decodeConstantPools bits bytes [range]
  return pools.getLast?.getD []

/-- The initial values: those that are only counted are made again. -/
def DataLayoutTable.privateInit (bits : ℕ) (t : DataLayoutTable) (bytes : List Byte) :
    Except SchemaError (List ConstValue) :=
  if t.init.first = absent then .ok (List.replicate t.init.count.toNat (.int 0))
  else decodeConstantPool bits bytes (t.init.first, t.init.count)

/-- Decode the layout of the data segment, if there is one. -/
def decodeDataLayout (bits : ℕ) (bytes : List Byte) : Except SchemaError (Option DataLayout) := do
  match ← DataLayoutTable.parse bits bytes with
  | none => return none
  | some t =>
    let slots ← (List.range t.slots.len).mapM (t.expandSlots bits)
    let sharedLayout ← (List.range t.sharedSlots.len).mapM (t.expandShared bits)
    let privateCompositeLayout ← (List.range t.privateComposite.len).mapM (t.expandPrivate bits)
    let privateInit ← t.privateInit bits bytes
    return some ⟨slots.flatten, sharedLayout.flatten, privateCompositeLayout, privateInit⟩

end Keleusma.Schema
