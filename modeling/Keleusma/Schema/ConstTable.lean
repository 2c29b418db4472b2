import Keleusma.Schema.Tables
import Mathlib.Data.Finset.Sort

/-!
# Reading the constant table

`ConstTable.parse` checks once that every composite refers to a range of later records.
`decodeConstantPools` then rebuilds every constant in one sweep from the last record to the first;
a child is taken out of the table when its parent is built. `ConstTable.value` rebuilds one constant:
it collects the records below it and builds these in descending order.

A read that the source would make out of bounds, and an addition that overflows, is the outcome
`panicked`. A `usize` has `bits` bits, at least 32 on every target.
-/

namespace Keleusma.Schema

open KeleusmaWire (Byte WireError WireView RecordTable)
open Overflow (checkedAdd)

/-- Why a constant table could not be read. -/
inductive SchemaError
  | container (e : WireError)
  | missingRegion (kind : BitVec 16)
  | badIndex
  | badRange
  | unknownTag (tag : BitVec 16)
  | badName
  | panicked
  deriving DecidableEq, Repr

/-- The regions of a constant table. -/
structure ConstTable where
  pool : KeleusmaWire.Pool
  names : RecordTable
  consts : RecordTable
  structAux : RecordTable
  enumAux : RecordTable

/-- The value, or the error. -/
def okOr {α : Type} (e : SchemaError) : Option α → Except SchemaError α
  | none => .error e
  | some a => .ok a

theorem okOr_eq_ok {α : Type} {e : SchemaError} {o : Option α} {a : α} :
    okOr e o = .ok a ↔ o = some a := by
  cases o <;> simp [okOr]

/-- The value, or the error of the container. -/
def inContainer {α : Type} : Except WireError α → Except SchemaError α
  | .error e => .error (.container e)
  | .ok a => .ok a

theorem inContainer_eq_ok {α : Type} {r : Except WireError α} {a : α} :
    inContainer r = .ok a ↔ r = .ok a := by
  cases r <;> simp [inContainer]

namespace ConstTable

section Accessors

variable (bits : ℕ) (t : ConstTable)

/-- The number of constants. -/
def len : ℕ := t.consts.len

/-- The record of a constant. -/
def record (index : ℕ) : Option ConstRecord := t.consts.getAs ConstRecord bits index

/-- The bytes of a name. -/
def nameBytes (index : BitVec 32) : Option (List Byte) := do
  let r ← t.names.getAs NameRef bits index.toNat
  t.pool.slice bits r.offset r.length

/-- The names of a struct constant, which its record has an index of. -/
def structAuxOf (index : ℕ) : Option StructAux := do
  let r ← t.record bits index
  if r.tag.toNat ≠ Tag.struct then none else t.structAux.getAs StructAux bits r.aux.toNat

/-- The names of an enum constant, and its discriminant if it carries one. -/
def enumAuxOf (index : ℕ) : Option (EnumAux × Option Int) := do
  let r ← t.record bits index
  if r.tag.toNat ≠ Tag.enum then none
  else
    let aux ← t.enumAux.getAs EnumAux bits r.aux.toNat
    return (aux,
      if r.flags &&& flagHasDiscriminant ≠ 0 then some aux.discriminant.toInt else none)

/-- A name as a string. -/
def nameOf (index : BitVec 32) : Except SchemaError String := do
  let slice ← okOr .badName (t.nameBytes bits index)
  okOr .badName (fromUtf8 slice)

end Accessors

/-! ## Parsing -/

/-- Every composite refers to a range strictly after it, inside the table. -/
def validateOrdering (bits : ℕ) (t : ConstTable) : Except SchemaError Unit :=
  (List.range t.len).forM fun i => do
    let r ← okOr .badIndex (t.record bits i)
    if r.isComposite then
      if !t.consts.rangeIsForward bits i r.asRange.1.toNat r.asRange.2.toNat then
        .error .badRange
      else .ok ()
    else .ok ()

/-- The tables of a container, if its records are in order. -/
def parse (bits : ℕ) (bytes : List Byte) : Except SchemaError ConstTable := do
  let view ← inContainer (WireView.parse bits bytes)
  let region (kind : BitVec 16) : Except SchemaError KeleusmaWire.Region :=
    okOr (.missingRegion kind) (view.findRegion kind)
  let pool ← inContainer (view.pool bits (← region Kind.stringPool))
  let names ← inContainer (view.typedRecords NameRef bits (← region Kind.names))
  let consts ← inContainer (view.typedRecords ConstRecord bits (← region Kind.consts))
  let structAux ← inContainer (view.typedRecords StructAux bits (← region Kind.structAux))
  let enumAux ← inContainer (view.typedRecords EnumAux bits (← region Kind.enumAux))
  let table : ConstTable := ⟨pool, names, consts, structAux, enumAux⟩
  table.validateOrdering bits
  return table

/-! ## The value of a record -/

section Values

variable (bits : ℕ) (t : ConstTable)

/-- The value of a record without children. -/
def scalarValue (r : ConstRecord) : Except SchemaError ConstValue :=
  if r.tag.toNat = Tag.unit then .ok .unit
  else if r.tag.toNat = Tag.none then .ok .none
  else if r.tag.toNat = Tag.bool then .ok (.bool (r.payload != 0))
  else if r.tag.toNat = Tag.int then .ok (.int r.payload.toInt)
  else if r.tag.toNat = Tag.byte then .ok (.byte (r.payload.setWidth 8).toNat)
  else if r.tag.toNat = Tag.fixed then .ok (.fixed r.payload.toInt)
  else if r.tag.toNat = Tag.float then .ok (.float r.payload.toNat)
  else if r.tag.toNat = Tag.staticStr then do return .staticStr (← t.nameOf bits r.aux)
  else .error (.unknownTag r.tag)

/-- The names of a struct's fields stand in a row from `first` on; `k` counts the fields. -/
def namedFields (first : BitVec 32) :
    ℕ → List ConstValue → Except SchemaError (List (String × ConstValue))
  | _, [] => .ok []
  | k, v :: values => do
    if 2 ^ 32 ≤ first.toNat + k then throw .panicked
    let name ← t.nameOf bits (first + BitVec.ofNat 32 k)
    return (name, v) :: (← namedFields first (k + 1) values)

/-- The value of the record at an index; `take` hands over the values of its children. -/
def entryValue {σ : Type} (i : ℕ) (r : ConstRecord)
    (take : σ → Except SchemaError (List ConstValue × σ)) (built : σ) :
    Except SchemaError (ConstValue × σ) :=
  if r.tag.toNat = Tag.tuple then do
    let (values, built) ← take built
    return (.tuple values, built)
  else if r.tag.toNat = Tag.array then do
    let (values, built) ← take built
    return (.array values, built)
  else if r.tag.toNat = Tag.struct then do
    let aux ← okOr .badIndex (t.structAuxOf bits i)
    let (values, built) ← take built
    let fields ← t.namedFields bits aux.fieldNamesFirst 0 values
    let typeName ← t.nameOf bits aux.typeName
    return (.struct typeName fields, built)
  else if r.tag.toNat = Tag.enum then do
    let (aux, discriminant) ← okOr .badIndex (t.enumAuxOf bits i)
    let typeName ← t.nameOf bits aux.typeName
    let variant ← t.nameOf bits aux.variant
    let (values, built) ← take built
    return (.enum typeName variant discriminant values, built)
  else do
    return (← t.scalarValue bits r, built)

end Values

/-! ## One constant -/

/-- The children of a record, by their indices. -/
def childIndices (r : ConstRecord) : List ℕ :=
  if r.isComposite then (List.range r.asRange.2.toNat).map (r.asRange.1.toNat + ·) else []

theorem lt_len_of_record {bits : ℕ} {t : ConstTable} {i : ℕ} {r : ConstRecord}
    (h : t.record bits i = some r) : i < t.len :=
  RecordTable.lt_len_of_getAs h

/-- Collect the records below the work list. -/
def collect (bits : ℕ) (t : ConstTable) : List ℕ → Finset ℕ → Except SchemaError (Finset ℕ)
  | [], reachable => .ok reachable
  | i :: work, reachable =>
    if i ∈ reachable then collect bits t work reachable
    else
      match _h : t.record bits i with
      | none => .error .badIndex
      | some r =>
        if (childIndices r).all fun child => i < child && child < t.len then
          collect bits t ((childIndices r).reverse ++ work) (insert i reachable)
        else .error .badRange
termination_by work reachable => ((Finset.range t.len \ reachable).card, work.length)
decreasing_by
  · exact Prod.Lex.right _ (Nat.lt_succ_self _)
  · apply Prod.Lex.left
    apply Finset.card_lt_card
    have hi : i ∈ Finset.range t.len := Finset.mem_range.mpr (lt_len_of_record _h)
    rw [Finset.ssubset_iff_of_subset (Finset.sdiff_subset_sdiff le_rfl (Finset.subset_insert _ _))]
    exact ⟨i, Finset.mem_sdiff.mpr ⟨hi, by assumption⟩, fun hmem =>
      (Finset.mem_sdiff.mp hmem).2 (Finset.mem_insert_self _ _)⟩

/-- Take the values of a run out of a map. -/
def removeRun : ℕ → ℕ → (ℕ → Option ConstValue) →
    Except SchemaError (List ConstValue × (ℕ → Option ConstValue))
  | _, 0, built => .ok ([], built)
  | first, n + 1, built => do
    let v ← okOr .badRange (built first)
    let (values, built) ← removeRun (first + 1) n (Function.update built first none)
    return (v :: values, built)

/-- Build the values of records, the later ones first. -/
def buildEach (bits : ℕ) (t : ConstTable) :
    List ℕ → (ℕ → Option ConstValue) → Except SchemaError (ℕ → Option ConstValue)
  | [], built => .ok built
  | i :: is, built => do
    let r ← okOr .badIndex (t.record bits i)
    let take := removeRun r.asRange.1.toNat r.asRange.2.toNat
    let (v, built) ← t.entryValue bits i r take built
    buildEach bits t is (Function.update built i (some v))

/-- The constant at an index. -/
def value (bits : ℕ) (t : ConstTable) (root : ℕ) : Except SchemaError ConstValue :=
  if t.len ≤ root then .error .badIndex
  else do
    let r ← okOr .badIndex (t.record bits root)
    if !isCompositeTag r.tag then t.scalarValue bits r
    else do
      let reachable ← t.collect bits [root] ∅
      let built ← t.buildEach bits (reachable.sort (· ≥ ·)) fun _ => none
      okOr .badIndex (built root)

end ConstTable

/-! ## Every constant -/

/-- Take the values of a run out of the table. -/
def takeRun (missing : SchemaError) : ℕ → ℕ → List (Option ConstValue) →
    Except SchemaError (List ConstValue × List (Option ConstValue))
  | _, 0, built => .ok ([], built)
  | first, n + 1, built =>
    match built[first]? with
    | none => .error .panicked
    | some none => .error missing
    | some (some v) => do
      let (values, built) ← takeRun missing (first + 1) n (built.set first none)
      return (v :: values, built)

/-- Build the values of records, the later ones first. -/
def sweep (bits : ℕ) (t : ConstTable) :
    List ℕ → List (Option ConstValue) → Except SchemaError (List (Option ConstValue))
  | [], built => .ok built
  | i :: is, built => do
    let r ← okOr .badIndex (t.record bits i)
    let take := takeRun .badRange r.asRange.1.toNat r.asRange.2.toNat
    let (v, built) ← t.entryValue bits i r take built
    sweep bits t is (built.set i (some v))

/-- The range does not carry the sentinel and lies inside the table. -/
def checkRange (bits : ℕ) (t : ConstTable) (range : ConstRange) : Except SchemaError Unit :=
  if range.1 = absent then .error .badIndex
  else do
    let stop ← okOr .badIndex (checkedAdd bits range.1.toNat range.2.toNat)
    if t.len < stop then .error .badIndex else .ok ()

/-- Take the pools that the ranges name. -/
def takePools : List ConstRange → List (Option ConstValue) →
    Except SchemaError (List (List ConstValue))
  | [], _ => .ok []
  | range :: ranges, built => do
    let (pool, built) ← takeRun .badIndex range.1.toNat range.2.toNat built
    return pool :: (← takePools ranges built)

/-- Decode several pools in one pass over the table. -/
def decodeConstantPools (bits : ℕ) (bytes : List Byte) (ranges : List ConstRange) :
    Except SchemaError (List (List ConstValue)) := do
  let t ← ConstTable.parse bits bytes
  ranges.forM (checkRange bits t)
  let built ← sweep bits t (List.range t.len).reverse (List.replicate t.len none)
  takePools ranges built

end Keleusma.Schema
