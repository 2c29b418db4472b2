import Keleusma.Runtime.Arena

/-!
# Runtime values

The values of the operand stack. Composite values come in two representations: a flat body, which
is a handle to bytes in memory, and a boxed one, which holds the element values. The kind of
float is a parameter, together with the operations the runtime performs on it.

The module ends with the codec between values and bytes: the size and bytes of a field, packing
values into a flat body in the arena, and reading a scalar field back.
-/

namespace Keleusma

/-- The float type of the runtime. -/
structure FloatOps (F : Type) where
  add : F → F → F
  sub : F → F → F
  mul : F → F → F
  div : F → F → F
  rem : F → F → F
  neg : F → F
  zero : F
  beq : F → F → Bool
  /-- The partial order, with unordered operands reported equal. -/
  compare : F → F → Ordering
  /-- Round to the width a module declares. -/
  narrow : ℕ → F → F
  ofInt : Int → F
  toInt : F → Int
  /-- `0` finite, `1` positive infinity, `2` negative infinity, `4` not a number. -/
  checkedFlag : F → Int
  ofBits : ℕ → F
  /-- The bytes at a width of four or eight bytes. -/
  toLeBytes : ℕ → F → List UInt8
  ofLeBytes : List UInt8 → F
  length_toLeBytes : ∀ n x, (toLeBytes n x).length = n

/-- A runtime value. -/
inductive Value (F : Type)
  | unit
  | bool (b : Bool)
  | int (n : Int)
  | byte (b : UInt8)
  | fixed (n : Int)
  | float (x : F)
  | staticStr (s : String)
  | kstr (h : Handle)
  /-- A composite of the given kind with a flat body. -/
  | flat (kind : CompositeKind) (body : Handle)
  | tuple (elems : List (Value F))
  | array (elems : List (Value F))
  | struct (typeName : String) (fields : List (String × Value F))
  | enum (typeName variant : String) (disc : Int) (minPayload : ℕ) (fields : List (Value F))
  | none
  /-- A reference-counted host object, identified by its pointer. -/
  | hostObject (id : ℕ)
  /-- The registry index of a host object, the form the operand stack holds. -/
  | opaqueRef (index : ℕ)

/-- A host failure, with the category the runtime reads off it. -/
structure HostError where
  softHost : Bool
  code : Option Int
  message : String
  deriving DecidableEq

/-- A runtime error. A native's own error is kept apart as `host`; `panic` stands for an
operation the source leaves to a runtime check of the language. -/
inductive VmError
  | stackUnderflow
  | typeError (message : String)
  | divisionByZero
  | indexOutOfBounds (index : Int) (bound : ℕ)
  | fieldNotFound (typeName field : String)
  | nativeError (message : String)
  | nativeErrorCode (code : Int) (message : String)
  | invalidBytecode (message : String)
  | refinementFailed | noMatchingHead | noMatchingArm | checkedArithNoArm | enumVariantUnmapped
  | assertionFailed | loopLimitExceeded
  | outOfArena (region : String)
  | notSuspended
  | host (e : HostError)
  | panicked (message : String)
  deriving DecidableEq

namespace Value

variable {F : Type}

/-- The name of a value's type in a message. -/
def typeName : Value F → String
  | unit => "Unit"
  | bool _ => "Bool"
  | int _ => "Int"
  | byte _ => "Byte"
  | fixed _ => "Fixed"
  | float _ => "Float"
  | staticStr _ => "StaticStr"
  | kstr _ => "KStr"
  | tuple _ | flat .tuple _ => "Tuple"
  | array _ | flat .array _ => "Array"
  | struct _ _ | flat .struct _ => "Struct"
  | enum _ _ _ _ _ | flat .enum _ => "Enum"
  | none => "None"
  | hostObject _ | opaqueRef _ => "Opaque"

def isUnit : Value F → Bool
  | unit => true
  | _ => false

/-- A composite in the boxed form. -/
def isBoxed : Value F → Bool
  | tuple _ | array _ | struct _ _ | enum _ _ _ _ _ => true
  | _ => false

/-- The body of a flat composite. -/
def flatCompositeRef : Value F → Option Handle
  | flat _ body => some body
  | _ => Option.none

/-- The field kind of a scalar value. -/
def flatTupleScalarKind : Value F → Option ScalarKind
  | unit => some .unit
  | bool _ => some .bool
  | byte _ => some .byte
  | int _ => some .int
  | fixed _ => some .fixed
  | float _ => some .float
  | kstr _ => some .text
  | _ => Option.none

/-! ## Traversals of boxed composites

The runtime rewrites values at its boundary with the host, leaf by leaf through boxed bodies. A
flat body is bytes and is left alone. -/

section Traverse

variable {m : Type → Type} [Monad m]

mutual

/-- Rewrite the leaves of a boxed composite, and the layout hints of its enums. -/
def traverse (leaf : Value F → m (Value F)) (hints : String → String → Int × ℕ → Int × ℕ) :
    Value F → m (Value F)
  | tuple es => do return tuple (← traverseList leaf hints es)
  | array es => do return array (← traverseList leaf hints es)
  | struct tn fs => do return struct tn (← traverseFields leaf hints fs)
  | enum tn v d p fs => do
    let fs' ← traverseList leaf hints fs
    let h := hints tn v (d, p)
    return enum tn v h.1 h.2 fs'
  | unit => leaf unit
  | bool b => leaf (bool b)
  | int n => leaf (int n)
  | byte b => leaf (byte b)
  | fixed n => leaf (fixed n)
  | float x => leaf (float x)
  | staticStr s => leaf (staticStr s)
  | kstr h => leaf (kstr h)
  | flat k h => leaf (flat k h)
  | none => leaf none
  | hostObject i => leaf (hostObject i)
  | opaqueRef i => leaf (opaqueRef i)

def traverseList (leaf : Value F → m (Value F)) (hints : String → String → Int × ℕ → Int × ℕ) :
    List (Value F) → m (List (Value F))
  | [] => return []
  | v :: vs => do
    let v' ← traverse leaf hints v
    let vs' ← traverseList leaf hints vs
    return v' :: vs'

def traverseFields (leaf : Value F → m (Value F))
    (hints : String → String → Int × ℕ → Int × ℕ) :
    List (String × Value F) → m (List (String × Value F))
  | [] => return []
  | (k, v) :: fs => do
    let v' ← traverse leaf hints v
    let fs' ← traverseFields leaf hints fs
    return (k, v') :: fs'

end

end Traverse

/-- Turn registry indices into the host objects they name. An index that does not resolve is
left as it is. -/
def materialiseOpaqueRefs (registry : List ℕ) (v : Value F) : Value F :=
  Id.run <| v.traverse
    (fun
      | opaqueRef i => match registry[i]? with
        | some id => hostObject id
        | Option.none => opaqueRef i
      | v => v)
    fun _ _ h => h

/-- The registry index of a host object, entered at the end when it is new. -/
def internEphemeralOpaque (id : ℕ) : StateM (List ℕ) ℕ := fun registry =>
  match registry.findIdx? (· == id) with
  | some i => (i, registry)
  | Option.none => (registry.length, registry ++ [id])

/-- Replace host objects by their registry indices. -/
def internOpaqueArcs (v : Value F) : StateM (List ℕ) (Value F) :=
  v.traverse
    (fun
      | hostObject id => do return opaqueRef (← internEphemeralOpaque id)
      | v => return v)
    fun _ _ h => h

/-- The discriminant and padding of a variant, from the module's table of enums. A variant absent
from its enum has discriminant zero. -/
def enumVariantLayout (layouts : List EnumLayout) (typeName variant : String) :
    Option (Int × ℕ) := do
  let l ← layouts.find? (·.typeName == typeName)
  let disc := match l.variants.find? (·.name == variant) with
    | some v => v.discriminant
    | Option.none => 0
  return (disc, l.minPayload)

/-- Take the discriminants and padding of a host-built value's enums from the module's table. -/
def correctNativeEnumHints (layouts : List EnumLayout) (v : Value F) : Value F :=
  Id.run <| v.traverse (fun v => v) fun tn var h => (enumVariantLayout layouts tn var).getD h

mutual

/-- Whether a boxed composite, or the value itself, holds a string the next reset reclaims. -/
def hasEphemeralStr (a : Arena) : Value F → Bool
  | kstr h => a.addrIsEphemeral h.addr
  | tuple es => anyEphemeralStr a es
  | array es => anyEphemeralStr a es
  | struct _ fs => anyEphemeralField a fs
  | enum _ _ _ _ fs => anyEphemeralStr a fs
  | _ => false

def anyEphemeralStr (a : Arena) : List (Value F) → Bool
  | [] => false
  | v :: vs => hasEphemeralStr a v || anyEphemeralStr a vs

def anyEphemeralField (a : Arena) : List (String × Value F) → Bool
  | [] => false
  | (_, v) :: fs => hasEphemeralStr a v || anyEphemeralField a fs

end

mutual

/-- The structural equality of the runtime. Strings in the arena compare by epoch, flat bodies
are equal when both are empty, and the layout hints of an enum do not count. -/
def beq (feq : F → F → Bool) : Value F → Value F → Bool
  | unit, unit | none, none => true
  | bool a, bool b => a == b
  | int a, int b => a == b
  | byte a, byte b => a == b
  | fixed a, fixed b => a == b
  | float a, float b => feq a b
  | staticStr a, staticStr b => a == b
  | kstr a, kstr b => a.epoch == b.epoch
  | flat k a, flat l b => k == l && a.len == 0 && b.len == 0
  | tuple as, tuple bs => beqList feq as bs
  | array as, array bs => beqList feq as bs
  | struct s as, struct t bs => s == t && beqFields feq as bs
  | enum s u _ _ as, enum t v _ _ bs => s == t && u == v && beqList feq as bs
  | hostObject a, hostObject b => a == b
  | opaqueRef a, opaqueRef b => a == b
  | _, _ => false

def beqList (feq : F → F → Bool) : List (Value F) → List (Value F) → Bool
  | [], [] => true
  | a :: as, b :: bs => beq feq a b && beqList feq as bs
  | _, _ => false

def beqFields (feq : F → F → Bool) : List (String × Value F) → List (String × Value F) → Bool
  | [], [] => true
  | (k, a) :: as, (l, b) :: bs => k == l && beq feq a b && beqFields feq as bs
  | _, _ => false

end

/-- The bytes of a string value: `none` when the value is not a string, and `some none` when the
string has been reclaimed. -/
def strBytes (a : Arena) : Value F → Option (Option (List UInt8))
  | staticStr s => some (some s.toUTF8.toList)
  | kstr h => some (a.resolve h)
  | _ => Option.none

end Value

/-- The number of characters of UTF-8 text: the bytes that do not continue one. -/
def charCount (bytes : List UInt8) : ℕ := (bytes.filter fun b => b &&& 0xC0 != 0x80).length

/-- Whether a value is of the declared primitive type. -/
def TypeTag.admits {F : Type} : TypeTag → Value F → Bool
  | .composite, _ => true
  | .byte, .byte _ => true
  | .word, .int _ => true
  | .fixed, .fixed _ => true
  | .float, .float _ => true
  | .bool, .bool _ => true
  | .unit, .unit => true
  | .text, .staticStr _ => true
  | .text, .kstr _ => true
  | _, _ => false

/-- The name of a type in a message. -/
def TypeTag.name : TypeTag → String
  | .composite => "Composite" | .byte => "Byte" | .word => "Word" | .fixed => "Fixed"
  | .float => "Float" | .bool => "Bool" | .unit => "Unit" | .text => "Text"

end Keleusma
