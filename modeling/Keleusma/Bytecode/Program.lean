import Keleusma.Bytecode.Instruction

/-!
# Chunks and modules

A module is a list of chunks (the compiled functions), the names of the native functions it
calls, the layout of its persistent data, and side tables the verifier reads: flat shapes of
parameters, results and resume values, and the body sizes of the declared enums.
-/

namespace Keleusma

/-- A compile-time constant. -/
inductive ConstValue
  | unit
  | bool (b : Bool)
  | int (n : Int)
  | byte (b : ℕ)
  | fixed (n : Int)
  | float (bits : ℕ)
  | staticStr (s : String)
  | tuple (elems : List ConstValue)
  | array (elems : List ConstValue)
  | struct (typeName : String) (fields : List (String × ConstValue))
  | enum (typeName variant : String) (discriminant : Option Int) (fields : List ConstValue)
  | none

/-- The names a boxed `NewComposite` reads. -/
structure StructTemplate where
  typeName : String
  fieldNames : List String
  deriving DecidableEq

/-- The category of a chunk: `fn`, `yield fn`, `loop fn`. -/
inductive BlockType
  | func | reentrant | stream
  deriving DecidableEq, Repr

/-- The declared type of a parameter, as far as the runtime checks it. -/
inductive TypeTag
  | composite | byte | word | fixed | float | bool | unit | text
  deriving DecidableEq, Repr

/-- A compiled function. -/
structure Chunk where
  name : String
  ops : List Op
  constants : List ConstValue
  structTemplates : List StructTemplate
  localCount : ℕ
  paramCount : ℕ
  blockType : BlockType
  paramTypes : List TypeTag

/-- A flat shape in the wire format; `top` defers to the runtime. -/
inductive WireShape
  | top
  | scalar (kind : ℕ)
  | flat (kind size : ℕ)
  deriving DecidableEq, Repr

/-- The flat shapes of a chunk's parameters, result and resume value. -/
structure ChunkSignature where
  params : List WireShape
  ret : WireShape
  resume : WireShape
  deriving DecidableEq

/-- Who owns a data slot: the host's shared buffer, or the program. -/
inductive SlotVisibility
  | sharedSlot | privateSlot
  deriving DecidableEq, Repr

/-- A slot of the data segment. -/
structure DataSlot where
  name : String
  visibility : SlotVisibility
  deriving DecidableEq

/-- Where a shared slot lies in the host's buffer. -/
structure SharedSlotLayout where
  offset : ℕ
  kind : ℕ
  len : ℕ
  deriving DecidableEq

/-- The high bit of a shared slot's kind marks a composite. -/
def sharedSlotCompositeFlag : ℕ := 0x80

/-- Where the body of a private composite slot lies in the persistent pool. -/
structure PrivateCompositeSlot where
  slot : ℕ
  offset : ℕ
  deriving DecidableEq

/-- The data segment. -/
structure DataLayout where
  slots : List DataSlot
  sharedLayout : List SharedSlotLayout
  privateCompositeLayout : List PrivateCompositeSlot
  privateInit : List ConstValue

/-- The discriminant of a variant. -/
structure EnumVariantDisc where
  name : String
  discriminant : Int
  deriving DecidableEq

/-- The flat layout of a declared enum. -/
structure EnumLayout where
  typeName : String
  variants : List EnumVariantDisc
  minPayload : ℕ
  deriving DecidableEq

/-- A compiled module. -/
structure Module where
  chunks : List Chunk
  nativeNames : List String
  entryPoint : Option ℕ
  dataLayout : Option DataLayout
  wordBitsLog2 : ℕ
  addrBitsLog2 : ℕ
  floatBitsLog2 : ℕ
  persistentCompositeBytes : ℕ
  sharedDataBytes : ℕ
  enumLayouts : List EnumLayout
  signatures : List ChunkSignature
  nativeReturnShapes : List WireShape

namespace Module

/-- The declared word width in bytes. -/
def wordBytes (m : Module) : ℕ := 2 ^ m.wordBitsLog2 / 8

/-- The declared float width in bytes. -/
def floatBytes (m : Module) : ℕ := 2 ^ m.floatBitsLog2 / 8

/-- The declared address width in bytes, which sizes an opaque field. -/
def addrBytes (m : Module) : ℕ := 2 ^ m.addrBitsLog2 / 8

end Module

end Keleusma
