import Keleusma.Runtime.Value

/-!
# Flat bodies

The codec between values and the bytes of a flat body: packing values into the arena
(`packFlatInArena`), reading a scalar field (`readFlatScalar`), viewing a nested composite, the
flat form of a composite constant, and the canonical form a host-built composite is given when it
enters the machine (`intoArenaCanonical`).

`Widths` collects what the layout of a body depends on: the widths the module declares, the
width of a machine pointer, and the width of the runtime's word.
-/

namespace Keleusma

/-- The widths a flat layout depends on. -/
structure Widths where
  wordBytes : ℕ
  floatBytes : ℕ
  addrBytes : ℕ
  pointerBytes : ℕ
  runtimeBitsLog2 : ℕ
  deriving DecidableEq

/-- The size of a field of the kind. -/
def Widths.size (w : Widths) (k : ScalarKind) : ℕ :=
  k.sizeInBytes w.wordBytes w.floatBytes w.addrBytes

variable {F : Type}

/-! ## Packing -/

/-- The size of a value as a field of a flat body, when it has a flat form. -/
def flatFieldSize (w : Widths) : Value F → Option ℕ
  | .opaqueRef _ => some (w.size .opaqueRef)
  | v => match v.flatTupleScalarKind with
    | some kind => some (w.size kind)
    | none => v.flatCompositeRef.map (·.len)

/-- Whether an element keeps a tuple or an array flat. -/
def flatTupleElementWithRefs (w : Widths) : Value F → Bool
  | .hostObject _ | .opaqueRef _ => true
  | .staticStr _ | .kstr _ => w.pointerBytes ≤ w.wordBytes
  | v => (flatFieldSize w v).isSome

/-- The bytes of a scalar value. -/
def scalarBytes (fo : FloatOps F) (w : Widths) : Value F → Option (List UInt8)
  | .unit | .none => some []
  | .bool b => some [if b then 1 else 0]
  | .byte b => some [b]
  | .int n | .fixed n => if w.wordBytes ≤ 8 then some (Word.toLeBytes n w.wordBytes) else none
  | .float x =>
    if w.floatBytes = 8 ∨ w.floatBytes = 4 then some (fo.toLeBytes w.floatBytes x) else none
  | .kstr h =>
    if w.pointerBytes ≤ w.wordBytes then
      some (Word.toLeBytes h.addr w.wordBytes ++ Word.toLeBytes h.len w.wordBytes)
    else none
  | _ => none

/-- The bytes of a value as a field of a flat body. -/
def flatFieldBytes (fo : FloatOps F) (w : Widths) (a : Arena) : Value F → Option (List UInt8)
  | .opaqueRef index =>
    if w.addrBytes ≤ 8 ∧ index < 256 ^ w.addrBytes then some (Word.toLeBytes index w.addrBytes)
    else none
  | .flat _ body => a.resolve body
  | .none => none
  | v => scalarBytes fo w v

/-- The bytes of a field fill it. -/
theorem flatFieldBytes_length {fo : FloatOps F} {w : Widths} {a : Arena} {v : Value F} {n : ℕ}
    {bytes : List UInt8} (hsize : flatFieldSize w v = some n)
    (hbytes : flatFieldBytes fo w a v = some bytes) : bytes.length = n := by
  cases v with
  | int i | fixed i =>
    cases hsize
    simp only [flatFieldBytes, scalarBytes, Option.ite_none_right_eq_some, Option.some.injEq]
      at hbytes
    rw [← hbytes.2]
    exact Word.toLeBytes_length _ _
  | float x =>
    cases hsize
    simp only [flatFieldBytes, scalarBytes, Option.ite_none_right_eq_some, Option.some.injEq]
      at hbytes
    rw [← hbytes.2]
    exact fo.length_toLeBytes _ _
  | kstr h =>
    cases hsize
    simp only [flatFieldBytes, scalarBytes, Option.ite_none_right_eq_some, Option.some.injEq]
      at hbytes
    rw [← hbytes.2, List.length_append, Word.toLeBytes_length, Word.toLeBytes_length]
    exact (Nat.two_mul _).symm
  | opaqueRef i =>
    cases hsize
    simp only [flatFieldBytes, Option.ite_none_right_eq_some, Option.some.injEq] at hbytes
    rw [← hbytes.2]
    exact Word.toLeBytes_length _ _
  | flat kind body =>
    cases hsize
    exact Arena.resolve_length hbytes
  | unit | bool b | byte b =>
    cases hsize
    cases hbytes
    rfl
  | _ => cases hsize

/-- The bytes of the fields fill their sizes. -/
theorem flatFields_length {fo : FloatOps F} {w : Widths} {a : Arena} {values : List (Value F)}
    {sizes : List ℕ} {fields : List (List UInt8)}
    (hsizes : values.mapM (flatFieldSize w) = some sizes)
    (hfields : values.mapM (flatFieldBytes fo w a) = some fields) :
    fields.flatten.length = sizes.sum := by
  induction values generalizing sizes fields with
  | nil =>
    cases hsizes
    cases hfields
    rfl
  | cons v vs ih =>
    simp only [List.mapM_cons, Option.bind_eq_bind, Option.bind_eq_some_iff, Option.pure_def,
      Option.some.injEq] at hsizes hfields
    obtain ⟨n, hn, ns, hns, rfl⟩ := hsizes
    obtain ⟨b, hb, bs, hbs, rfl⟩ := hfields
    rw [List.flatten_cons, List.length_append, List.sum_cons, ih hns hbs,
      flatFieldBytes_length hn hb]

/-- The largest body a baked sixteen-bit offset reaches into. -/
def maxFlatBytes : ℕ := 65535

/-- Pack values into one body at the top of the arena, padded with zeros to `minBytes`. No body
results when a value has no flat form or the body is too large; the allocation fails when the
arena is exhausted. -/
def packFlatInArena (fo : FloatOps F) (w : Widths) (values : List (Value F)) (minBytes : ℕ)
    (a : Arena) : Option (Option Handle × Arena) :=
  match values.mapM (flatFieldSize w) with
  | none => some (none, a)
  | some sizes =>
    let size := max sizes.sum minBytes
    if maxFlatBytes < size then some (none, a)
    else if size = 0 then some (some Arena.emptyHandle, a)
    else match a.allocTop size with
      | none => none
      | some a' =>
        match values.mapM (flatFieldBytes fo w a') with
        | none => some (none, a')
        | some fields =>
          let addr := a'.base + a'.topTop
          let bytes := fields.flatten
          some (some ⟨addr, size, a'.epoch⟩,
            a'.write addr (bytes ++ List.replicate (size - bytes.length) 0))

/-! ## Reading -/

/-- The slice `[offset, offset + n)` of a body, when it lies inside it. -/
def slice (src : List UInt8) (offset n : ℕ) : Option (List UInt8) :=
  if offset + n ≤ src.length then some ((src.drop offset).take n) else none

/-- Why a scalar could not be read or written. -/
inductive ScalarError
  | outOfBounds | referenceKind | unsupportedWidth
  deriving DecidableEq, Repr

def ScalarError.toVmError : ScalarError → VmError
  | .outOfBounds => .invalidBytecode "flat scalar codec: OutOfBounds"
  | .referenceKind => .invalidBytecode "flat scalar codec: ReferenceKind"
  | .unsupportedWidth => .invalidBytecode "flat scalar codec: UnsupportedWidth"

/-- A slice as a result of the scalar codec. -/
def sliceOrOutOfBounds (src : List UInt8) (offset n : ℕ) : Except ScalarError (List UInt8) :=
  match slice src offset n with
  | some bytes => .ok bytes
  | none => .error .outOfBounds

/-- Read a scalar of a kind that holds no reference. -/
def readScalarLe (fo : FloatOps F) (w : Widths) (src : List UInt8) (offset : ℕ) :
    ScalarKind → Except ScalarError (Value F)
  | .unit => .ok .unit
  | .bool => do return .bool ((← sliceOrOutOfBounds src offset 1) != [0])
  | .byte => do return .byte ((← sliceOrOutOfBounds src offset 1).headD 0)
  | .int =>
    if 8 < w.wordBytes then .error .unsupportedWidth
    else do
      let bytes ← sliceOrOutOfBounds src offset w.wordBytes
      let n := (Word.ofLeBytes bytes : Int).bmod (2 ^ (8 * w.wordBytes))
      return .int (Word.wrap w.runtimeBitsLog2 n)
  | .fixed =>
    if 8 < w.wordBytes then .error .unsupportedWidth
    else do
      let bytes ← sliceOrOutOfBounds src offset w.wordBytes
      let n := (Word.ofLeBytes bytes : Int).bmod (2 ^ (8 * w.wordBytes))
      return .fixed (Word.wrap w.runtimeBitsLog2 n)
  | .float =>
    if w.floatBytes = 8 ∨ w.floatBytes = 4 then do
      return .float (fo.ofLeBytes (← sliceOrOutOfBounds src offset w.floatBytes))
    else .error .unsupportedWidth
  | .text | .opaqueRef => .error .referenceKind

/-- Read a scalar field of a body issued under `refEpoch`. An opaque field is its registry index
and a text field a pointer and a length, which get the epoch of the body. -/
def readFlatScalar (fo : FloatOps F) (w : Widths) (bytes : List UInt8) (offset : ℕ)
    (kind : ScalarKind) (refEpoch : ℕ) : Except VmError (Value F) :=
  match kind with
  | .opaqueRef =>
    if 8 < w.addrBytes then .error (.invalidBytecode "flat opaque field read out of bounds")
    else match slice bytes offset w.addrBytes with
      | none => .error (.invalidBytecode "flat opaque field read out of bounds")
      | some field => .ok (.opaqueRef (Word.ofLeBytes field % 2 ^ 32))
  | .text =>
    match slice bytes offset w.wordBytes, slice bytes (offset + w.wordBytes) w.wordBytes with
    | some ptr, some len =>
      if Word.ofLeBytes ptr = 0 then .ok (.staticStr "")
      else .ok (.kstr ⟨Word.ofLeBytes ptr, Word.ofLeBytes len, refEpoch⟩)
    | _, _ => .error (.invalidBytecode "flat Text field read out of bounds")
  | kind => (readScalarLe fo w bytes offset kind).mapError ScalarError.toVmError

/-- The nested composite at an offset of a body. -/
def flatNestedField (a : Arena) (body : Handle) (offset size : ℕ) (variant : CompositeKind) :
    Option (Value F) :=
  (a.nestedView body offset size).map (.flat variant)

theorem slice_length {src bytes : List UInt8} {offset n : ℕ} (h : slice src offset n = some bytes) :
    offset + n ≤ src.length ∧ bytes.length = n := by
  unfold slice at h
  split_ifs at h with hb
  cases h
  exact ⟨hb, by rw [List.length_take, List.length_drop]; omega⟩

/-! ## Constants -/

mutual

/-- The flat bytes of a constant, when it has a flat form. -/
def constFlatBytes (fo : FloatOps F) (wordBytes floatBytes : ℕ) : ConstValue → Option (List UInt8)
  | .unit => some []
  | .bool b => some [if b then 1 else 0]
  | .byte b => some [UInt8.ofNat b]
  | .int n | .fixed n => some (Word.toLeBytes n wordBytes)
  | .float bits =>
    if floatBytes = 8 ∨ floatBytes = 4 then some (fo.toLeBytes floatBytes (fo.ofBits bits))
    else none
  | .staticStr _ => none
  | .none => none
  | .tuple items | .array items => constFlatBytesList fo wordBytes floatBytes items
  | .struct _ fields => constFlatBytesFields fo wordBytes floatBytes fields
  | .enum _ _ discriminant fields => do
    let disc ← discriminant
    let rest ← constFlatBytesList fo wordBytes floatBytes fields
    return Word.toLeBytes disc wordBytes ++ rest

def constFlatBytesList (fo : FloatOps F) (wordBytes floatBytes : ℕ) :
    List ConstValue → Option (List UInt8)
  | [] => some []
  | c :: cs => do
    let b ← constFlatBytes fo wordBytes floatBytes c
    let bs ← constFlatBytesList fo wordBytes floatBytes cs
    return b ++ bs

def constFlatBytesFields (fo : FloatOps F) (wordBytes floatBytes : ℕ) :
    List (String × ConstValue) → Option (List UInt8)
  | [] => some []
  | (_, c) :: cs => do
    let b ← constFlatBytes fo wordBytes floatBytes c
    let bs ← constFlatBytesFields fo wordBytes floatBytes cs
    return b ++ bs

end

mutual

/-- A constant as a value; composites take the boxed form. -/
def Value.fromConst (fo : FloatOps F) (runtimeLog2 : ℕ) : ConstValue → Value F
  | .unit => .unit
  | .bool b => .bool b
  | .int n => .int (Word.wrap runtimeLog2 n)
  | .byte b => .byte (UInt8.ofNat b)
  | .fixed n => .fixed (Word.wrap runtimeLog2 n)
  | .float bits => .float (fo.ofBits bits)
  | .staticStr s => .staticStr s
  | .tuple items => .tuple (Value.fromConstList fo runtimeLog2 items)
  | .array items => .array (Value.fromConstList fo runtimeLog2 items)
  | .struct typeName fields => .struct typeName (Value.fromConstFields fo runtimeLog2 fields)
  | .enum typeName variant discriminant fields =>
    .enum typeName variant (discriminant.getD 0) 0 (Value.fromConstList fo runtimeLog2 fields)
  | .none => .none

def Value.fromConstList (fo : FloatOps F) (runtimeLog2 : ℕ) : List ConstValue → List (Value F)
  | [] => []
  | c :: cs => Value.fromConst fo runtimeLog2 c :: Value.fromConstList fo runtimeLog2 cs

def Value.fromConstFields (fo : FloatOps F) (runtimeLog2 : ℕ) :
    List (String × ConstValue) → List (String × Value F)
  | [] => []
  | (k, c) :: cs => (k, Value.fromConst fo runtimeLog2 c) :: Value.fromConstFields fo runtimeLog2 cs

end

/-- The kind of a composite constant. -/
def ConstValue.compositeKind? : ConstValue → Option CompositeKind
  | .tuple _ => some .tuple
  | .array _ => some .array
  | .struct _ _ => some .struct
  | .enum _ _ _ _ => some .enum
  | _ => Option.none

/-! ## The canonical form of host values

A host builds composites in the boxed form. On entry to the machine their strings move into the
arena and every composite that has a flat form is packed, its scratch allocations compacted. -/

/-- Computations that allocate in the arena and fail when it is exhausted. -/
abbrev ArenaM := StateT Arena Option

/-- Pack values in the arena, as a state transformer. -/
def packM (fo : FloatOps F) (w : Widths) (values : List (Value F)) (minBytes : ℕ) :
    ArenaM (Option Handle) :=
  fun a => packFlatInArena fo w values minBytes a

/-- A copy of static text in the arena. -/
def allocText (s : String) : ArenaM Handle := fun a => do
  let bytes := s.toUTF8.toList
  let a' ← a.allocTop bytes.length
  let addr := a'.base + a'.topTop
  return (⟨addr, bytes.length, a'.epoch⟩, a'.write addr bytes)

/-- Move the text fields of a boxed composite into the arena. -/
def promoteCompositeText (w : Widths) (v : Value F) : ArenaM (Value F) :=
  v.traverse
    (fun
      | .staticStr s =>
        if w.pointerBytes ≤ w.wordBytes then do return .kstr (← allocText s)
        else return .staticStr s
      | v => return v)
    fun _ _ h => h

/-- Slide a freshly packed body down over the scratch space allocated since `mark`. -/
def compactAfter (mark usedAtMark : ℕ) (kind : CompositeKind) (body : Handle) :
    ArenaM (Value F) := fun a =>
  if body.len = 0 ∨ a.topUsed - usedAtMark ≤ body.len then some (.flat kind body, a)
  else do
    let bytes ← a.resolve body
    let a' ← { a with topTop := mark }.allocTop body.len
    let addr := a'.base + a'.topTop
    return (.flat kind ⟨addr, body.len, a'.epoch⟩, a'.write addr bytes)

/-- Finish a composite: its flat body compacted, or the boxed value. -/
def finishCanonical (mark usedAtMark : ℕ) (kind : CompositeKind) (packed : Option Handle)
    (boxed : Value F) : ArenaM (Value F) :=
  match packed with
  | some body => compactAfter mark usedAtMark kind body
  | none => pure boxed

mutual

/-- Pack a boxed composite bottom up. The enum `Option` always packs with discriminant one. -/
def packCanonicalNode (fo : FloatOps F) (w : Widths) : Value F → ArenaM (Value F)
  | .tuple es => do
    let a ← get
    let es' ← packCanonicalList fo w es
    finishCanonical a.topTop a.topUsed .tuple (← packM fo w es' 0) (.tuple es')
  | .array es => do
    let a ← get
    let es' ← packCanonicalList fo w es
    finishCanonical a.topTop a.topUsed .array (← packM fo w es' 0) (.array es')
  | .struct typeName fs => do
    let a ← get
    let fs' ← packCanonicalFields fo w fs
    finishCanonical a.topTop a.topUsed .struct (← packM fo w (fs'.map (·.2)) 0)
      (.struct typeName fs')
  | .enum typeName variant disc minPayload fs => do
    let a ← get
    let fs' ← packCanonicalList fo w fs
    let disc' := if typeName = "Option" then 1 else disc
    finishCanonical a.topTop a.topUsed .enum
      (← packM fo w (.int (Word.wrap w.runtimeBitsLog2 disc') :: fs') (w.wordBytes + minPayload))
      (.enum typeName variant disc' minPayload fs')
  | v => pure v

def packCanonicalList (fo : FloatOps F) (w : Widths) : List (Value F) → ArenaM (List (Value F))
  | [] => pure []
  | v :: vs => do
    let v' ← packCanonicalNode fo w v
    let vs' ← packCanonicalList fo w vs
    return v' :: vs'

def packCanonicalFields (fo : FloatOps F) (w : Widths) :
    List (String × Value F) → ArenaM (List (String × Value F))
  | [] => pure []
  | (k, v) :: fs => do
    let v' ← packCanonicalNode fo w v
    let fs' ← packCanonicalFields fo w fs
    return (k, v') :: fs'

end

/-- The canonical form of a host value. Only a boxed composite is rebuilt. -/
def intoArenaCanonical (fo : FloatOps F) (w : Widths) (v : Value F) : ArenaM (Value F) :=
  if v.isBoxed then do packCanonicalNode fo w (← promoteCompositeText w v) else pure v

end Keleusma
