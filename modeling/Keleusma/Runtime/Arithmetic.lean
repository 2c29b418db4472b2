import Keleusma.Runtime.Effects

/-!
# Arithmetic, comparisons and conversions

The handlers of the instructions that compute on scalars, and their effects on the operand stack.
Families of instructions share a handler with parameters: the arithmetic on bytes, fixed-point
numbers and floats (`binaryArith`), the checked operations (`checkedBinary`), the comparisons
(`compareOp`) and the bitwise operations.
-/

namespace Keleusma

open StackEffect

variable {F α : Type} {env : Env F} {low p q : ℕ}

/-! ## Arithmetic -/

section

variable (env)

/-- The word of the runtime's width. -/
def intOf (n : Int) : Value F := .int (Word.wrap env.runtimeBitsLog2 n)

/-- Round a float to the width the module declares. -/
def narrowFloat (x : F) : Value F := .float (env.fo.narrow env.module.floatBitsLog2 x)

/-- The outcome of a checked operation: low slot, high slot and flag. -/
def pushTriple (low high : Value F) (flag : Int) : Exec F Unit := do
  push env low
  push env high
  push env (intOf env flag)

/-- Arithmetic on bytes, fixed-point numbers and floats, wrapping for the first two. -/
def binaryArith (intOp : Int → Int → Int) (floatOp : F → F → F)
    (fault : String → String → String) : Exec F Unit := do
  let b ← pop
  let a ← pop
  match a, b with
  | .byte x, .byte y => push env (.byte (UInt8.ofNat (intOp x.toNat y.toNat % 256).toNat))
  | .fixed x, .fixed y => push env (.fixed (Word.wrap env.runtimeBitsLog2 (intOp x y)))
  | .float x, .float y => push env (narrowFloat env (floatOp x y))
  | a, b => throw (.typeError (fault a.typeName b.typeName))

def cannotAdd (a b : String) : String := "cannot add " ++ a ++ " and " ++ b

def typeMismatch (a b : String) : String := "type mismatch: " ++ a ++ " and " ++ b

/-- `Neg`. -/
def execNeg : Exec F Unit := do
  match ← pop with
  | .byte x => push env (.byte (-x))
  | .fixed x => push env (.fixed (Word.wrap env.runtimeBitsLog2 (-x)))
  | .float x => push env (narrowFloat env (env.fo.neg x))
  | v => throw (.typeError ("cannot negate " ++ v.typeName))

/-- The outcome of a checked operation on words. -/
def pushChecked (r : Int) : Exec F Unit :=
  let (low, high, flag) := checkedArithOutputs env.runtimeBitsLog2 env.module.wordBitsLog2 r
  pushTriple env (.int low) (.int high) flag

/-- The outcome of a checked operation on fixed-point numbers. -/
def pushFixedChecked (r : Int) : Exec F Unit :=
  let (low, flag) := fixedCheckedOutputs env.runtimeBitsLog2 r
  pushTriple env (.fixed low) (.fixed 0) flag

/-- The outcome of a checked operation on floats. -/
def pushFloatChecked (x : F) : Exec F Unit :=
  let r := env.fo.narrow env.module.floatBitsLog2 x
  pushTriple env (.float r) (.float env.fo.zero) (env.fo.checkedFlag r)

/-- The outcome of a checked operation on bytes. -/
def pushByteChecked (r : Int) : Exec F Unit :=
  pushTriple env (.byte (UInt8.ofNat (r % 256).toNat)) (.byte 0)
    (if 0xFF < r then 1 else if r < 0 then 2 else 0)

/-- A fault of a checked operation: the operands it accepts, and those it got. -/
def checkedFault (op operands a b : String) : VmError :=
  .typeError ("Op::" ++ op ++ " expects " ++ operands ++ " operands, got " ++ a ++ " and " ++ b)

def wordByteFloatFixed : String := "Word, Byte, Float, or Fixed"

/-- A fraction-bit count at or beyond the word width. -/
def fracBitsFault : VmError := .invalidBytecode "Fixed fraction bits exceed word width"

/-- `CheckedAdd` and `CheckedSub`. -/
def checkedBinary (name : String) (intOp : Int → Int → Int) (floatOp : F → F → F) :
    Exec F Unit := do
  let b ← pop
  let a ← pop
  match a, b with
  | .int x, .int y => pushChecked env (intOp x y)
  | .byte x, .byte y => pushByteChecked env (intOp x.toNat y.toNat)
  | .float x, .float y => pushFloatChecked env (floatOp x y)
  | .fixed x, .fixed y => pushFixedChecked env (intOp x y)
  | a, b => throw (checkedFault name wordByteFloatFixed a.typeName b.typeName)

end

theorem effect_pushTriple (lo hi : Value F) (flag : Int) :
    Eff env low 0 3 (pushTriple env lo hi flag) :=
  (effect_push lo).bind 0 2 rfl rfl (.inr (Nat.zero_le _)) fun _ =>
    (effect_push hi).bind 0 1 rfl rfl (.inr (Nat.zero_le _)) fun _ => effect_push _

/-- A handler that pops two operands. -/
theorem effect_pop_pop {k : Value F → Value F → Exec F α} (hk : ∀ b a, Eff env low 0 q (k b a)) :
    Eff env low 2 q (do let b ← pop; let a ← pop; k b a) :=
  effect_pop.bind 1 q rfl rfl (.inl rfl) fun b => effect_pop.bind 0 q rfl rfl (.inl rfl) fun a =>
    hk b a

theorem effect_binaryArith (intOp : Int → Int → Int) (floatOp : F → F → F)
    (fault : String → String → String) : Eff env low 2 1 (binaryArith env intOp floatOp fault) := by
  refine effect_pop_pop fun b a => ?_
  split
  · exact effect_push _
  · exact effect_push _
  · exact effect_push _
  · exact .throw _ nofun nofun

theorem effect_execNeg : Eff env low 1 1 (execNeg env) := by
  refine effect_pop.bind 0 1 rfl rfl (.inl rfl) fun v => ?_
  split
  · exact effect_push _
  · exact effect_push _
  · exact effect_push _
  · exact .throw _ nofun nofun

theorem effect_checkedBinary (name : String) (intOp : Int → Int → Int) (floatOp : F → F → F) :
    Eff env low 2 3 (checkedBinary env name intOp floatOp) := by
  refine effect_pop_pop fun b a => ?_
  split
  · exact effect_pushTriple _ _ _
  · exact effect_pushTriple _ _ _
  · exact effect_pushTriple _ _ _
  · exact effect_pushTriple _ _ _
  · exact .throw _ nofun nofun

section

variable (env)

/-- `CheckedMul`. -/
def execCheckedMul (fracBits : ℕ) : Exec F Unit := do
  let b ← pop
  let a ← pop
  match a, b with
  | .int x, .int y => pushChecked env (x * y)
  | .byte x, .byte y => pushByteChecked env (x.toNat * y.toNat)
  | .float x, .float y => pushFloatChecked env (env.fo.mul x y)
  | .fixed x, .fixed y =>
    if Word.bits env.runtimeBitsLog2 ≤ fracBits then throw fracBitsFault
    else pushFixedChecked env (Word.shiftRight (x * y) fracBits)
  | a, b => throw (checkedFault "CheckedMul" wordByteFloatFixed a.typeName b.typeName)

/-- `CheckedNeg`. -/
def execCheckedNeg : Exec F Unit := do
  match ← pop with
  | .int x => pushChecked env (-x)
  | .fixed x => pushFixedChecked env (-x)
  | a => throw (.typeError ("Op::CheckedNeg expects a Word or Fixed operand, got " ++ a.typeName))

/-- `Div` and `CheckedDiv`. A zero divisor is flag three, with the numerator in the low slot. -/
def execDiv (fracBits : ℕ) : Exec F Unit := do
  let b ← pop
  let a ← pop
  match a, b with
  | .int x, .int y =>
    if y = 0 then pushTriple env (.int x) (.int 0) 3 else pushChecked env (x.tdiv y)
  | .byte x, .byte y =>
    if y = 0 then pushTriple env (.byte x) (.byte 0) 3
    else pushTriple env (.byte (x / y)) (.byte 0) 0
  | .float x, .float y => pushFloatChecked env (env.fo.div x y)
  | .fixed x, .fixed y =>
    if y = 0 then pushTriple env (.fixed x) (.fixed 0) 3
    else if Word.bits env.runtimeBitsLog2 ≤ fracBits then throw fracBitsFault
    else pushFixedChecked env ((x * 2 ^ fracBits).tdiv y)
  | a, b => throw (checkedFault "CheckedDiv" wordByteFloatFixed a.typeName b.typeName)

end

theorem effect_execCheckedMul (n : ℕ) : Eff env low 2 3 (execCheckedMul env n) := by
  refine effect_pop_pop fun b a => ?_
  split
  · exact effect_pushTriple _ _ _
  · exact effect_pushTriple _ _ _
  · exact effect_pushTriple _ _ _
  · split
    · exact .throw _ nofun nofun
    · exact effect_pushTriple _ _ _
  · exact .throw _ nofun nofun

theorem effect_execCheckedNeg : Eff env low 1 3 (execCheckedNeg env) := by
  refine effect_pop.bind 0 3 rfl rfl (.inl rfl) fun v => ?_
  split
  · exact effect_pushTriple _ _ _
  · exact effect_pushTriple _ _ _
  · exact .throw _ nofun nofun

theorem effect_execDiv (n : ℕ) : Eff env low 2 3 (execDiv env n) := by
  refine effect_pop_pop fun b a => ?_
  split
  · split <;> exact effect_pushTriple _ _ _
  · split <;> exact effect_pushTriple _ _ _
  · exact effect_pushTriple _ _ _
  · split
    · exact effect_pushTriple _ _ _
    · split
      · exact .throw _ nofun nofun
      · exact effect_pushTriple _ _ _
  · exact .throw _ nofun nofun

section

variable (env)

/-- `Mod` and `CheckedMod`; only the plain form accepts floats. -/
def execMod (plain : Bool) : Exec F Unit := do
  let b ← pop
  let a ← pop
  match a, b with
  | .int x, .int y =>
    if y = 0 then pushTriple env (.int x) (.int 0) 3
    else
      let r := x.tmod y
      pushTriple env (intOf env r)
        (intOf env (Word.shiftRight r (Word.bits env.runtimeBitsLog2))) 0
  | .byte x, .byte y =>
    if y = 0 then pushTriple env (.byte x) (.byte 0) 3
    else pushTriple env (.byte (x % y)) (.byte 0) 0
  | .fixed x, .fixed y =>
    if y = 0 then pushTriple env (.fixed x) (.fixed 0) 3
    else pushTriple env (.fixed (Word.wrap env.runtimeBitsLog2 (x.tmod y))) (.fixed 0) 0
  | .float x, .float y =>
    if plain then pushFloatChecked env (env.fo.rem x y)
    else throw (checkedFault "CheckedMod" "Word, Byte, or Fixed" "Float" "Float")
  | a, b => throw (checkedFault "CheckedMod" "Word, Byte, or Fixed" a.typeName b.typeName)

/-- `FixedMul`, which saturates. -/
def execFixedMul (fracBits : ℕ) : Exec F Unit := do
  if Word.bits env.runtimeBitsLog2 ≤ fracBits then throw fracBitsFault
  else
    let b ← pop
    let a ← pop
    match a, b with
    | .fixed x, .fixed y =>
      push env (.fixed (Word.saturate env.runtimeBitsLog2 (Word.shiftRight (x * y) fracBits)))
    | a, b => throw (.typeError ("FixedMul requires two Fixed operands, got " ++
        a.typeName ++ " and " ++ b.typeName))

/-- `FixedDiv`, which saturates and reports a zero divisor as flag three. -/
def execFixedDiv (fracBits : ℕ) : Exec F Unit := do
  if Word.bits env.runtimeBitsLog2 ≤ fracBits then throw fracBitsFault
  else
    let b ← pop
    let a ← pop
    match a, b with
    | .fixed x, .fixed y =>
      if y = 0 then pushTriple env (.fixed x) (.fixed 0) 3
      else
        let bits := Word.saturate env.runtimeBitsLog2 ((x * 2 ^ fracBits).tdiv y)
        pushTriple env (.fixed bits) (.fixed 0) 0
    | a, b => throw (.typeError ("FixedDiv requires two Fixed operands, got " ++
        a.typeName ++ " and " ++ b.typeName))

end

theorem effect_execMod (plain : Bool) : Eff env low 2 3 (execMod env plain) := by
  refine effect_pop_pop fun b a => ?_
  split
  · split <;> exact effect_pushTriple _ _ _
  · split <;> exact effect_pushTriple _ _ _
  · split <;> exact effect_pushTriple _ _ _
  · split
    · exact effect_pushTriple _ _ _
    · exact .throw _ nofun nofun
  · exact .throw _ nofun nofun

theorem effect_execFixedMul (n : ℕ) : Eff env low 2 1 (execFixedMul env n) := by
  unfold execFixedMul
  split
  · exact .throw _ nofun nofun
  · refine effect_pop_pop fun b a => ?_
    split
    · exact effect_push _
    · exact .throw _ nofun nofun

theorem effect_execFixedDiv (n : ℕ) : Eff env low 2 3 (execFixedDiv env n) := by
  unfold execFixedDiv
  split
  · exact .throw _ nofun nofun
  · refine effect_pop_pop fun b a => ?_
    split
    · split <;> exact effect_pushTriple _ _ _
    · exact .throw _ nofun nofun

/-! ## Bits -/

section

variable (env)

/-- The bitwise operations, on the bit patterns of two words. -/
def execBitwise (name : String) (f : ℕ → ℕ → ℕ) : Exec F Unit := do
  let b ← pop
  let a ← pop
  match a, b with
  | .int x, .int y => push env (.int (Word.bitwise env.runtimeBitsLog2 f x y))
  | a, b => throw (checkedFault name "Word" a.typeName b.typeName)

/-- `Shl` and `Shr`; the count is taken modulo the word width. -/
def execShift (name : String) (f : Int → ℕ → Int) : Exec F Unit := do
  let count ← pop
  let value ← pop
  match value, count with
  | .int v, .int c =>
    push env (.int (Word.wrap env.runtimeBitsLog2 (f v (Word.shiftCount env.runtimeBitsLog2 c))))
  | a, b => throw (checkedFault name "Word" a.typeName b.typeName)

end

theorem effect_execBitwise (name : String) (f : ℕ → ℕ → ℕ) :
    Eff env low 2 1 (execBitwise env name f) := by
  refine effect_pop_pop fun b a => ?_
  split
  · exact effect_push _
  · exact .throw _ nofun nofun

theorem effect_execShift (name : String) (f : Int → ℕ → Int) :
    Eff env low 2 1 (execShift env name f) := by
  refine effect_pop_pop fun b a => ?_
  split
  · exact effect_push _
  · exact .throw _ nofun nofun

/-! ## Comparisons -/

section

variable (env)

def staleText : VmError := .typeError "KStr is stale (arena reset since allocation)"

/-- The contents of two strings, when both operands are strings. -/
def stringContents (a b : Value F) : Exec F (Option (List UInt8 × List UInt8)) := do
  let arena := (← get).arena
  match a.strBytes arena, b.strBytes arena with
  | some (some xs), some (some ys) => return some (xs, ys)
  | some _, some _ => throw staleText
  | _, _ => return none

/-- `CmpEq` and `CmpNe`: strings by content, anything else structurally. Two flat composites are
refused. -/
def execCmpEq (negate : Bool) : Exec F Unit := do
  let b ← pop
  let a ← pop
  match ← stringContents a b with
  | some (xs, ys) => push env (.bool ((xs == ys) != negate))
  | none =>
    if a.flatCompositeRef.isSome && b.flatCompositeRef.isSome then
      throw (.typeError "equality on an untyped flat composite")
    else push env (.bool (a.beq env.fo.beq b != negate))

/-- The order on byte sequences. -/
def compareBytes : List UInt8 → List UInt8 → Ordering
  | [], [] => .eq
  | [], _ :: _ => .lt
  | _ :: _, [] => .gt
  | x :: xs, y :: ys => (compare x y).then (compareBytes xs ys)

/-- The ordered comparisons. -/
def compareOp (pred : Ordering → Bool) : Exec F Unit := do
  let b ← pop
  let a ← pop
  match a, b with
  | .int x, .int y => push env (.bool (pred (compare x y)))
  | .byte x, .byte y => push env (.bool (pred (compare x y)))
  | .fixed x, .fixed y => push env (.bool (pred (compare x y)))
  | .float x, .float y => push env (.bool (pred (env.fo.compare x y)))
  | a, b =>
    match ← stringContents a b with
    | some (xs, ys) => push env (.bool (pred (compareBytes xs ys)))
    | none => throw (.typeError ("cannot compare " ++ a.typeName ++ " and " ++ b.typeName))

/-- `Not`. -/
def execNot : Exec F Unit := do
  match ← pop with
  | .bool b => push env (.bool !b)
  | v => throw (.typeError ("cannot apply not to " ++ v.typeName))

end

theorem effect_stringContents (a b : Value F) : Eff env low 0 0 (stringContents a b) := by
  refine .get_bind (fun _ => rfl) fun s => ?_
  dsimp only
  split
  · exact .pure _
  · exact .throw _ nofun nofun
  · exact .pure _

theorem effect_execCmpEq (negate : Bool) : Eff env low 2 1 (execCmpEq env negate) := by
  refine effect_pop_pop fun b a => (effect_stringContents _ _).bind_neutral fun r => ?_
  split
  · exact effect_push _
  · split
    · exact .throw _ nofun nofun
    · exact effect_push _

theorem effect_compareOp (pred : Ordering → Bool) : Eff env low 2 1 (compareOp env pred) := by
  refine effect_pop_pop fun b a => ?_
  split
  · exact effect_push _
  · exact effect_push _
  · exact effect_push _
  · exact effect_push _
  · refine (effect_stringContents _ _).bind_neutral fun r => ?_
    split
    · exact effect_push _
    · exact .throw _ nofun nofun

/-- A handler that converts one operand. -/
theorem effect_pop_convert {k : Value F → Exec F Unit} (hk : ∀ v, Eff env low 0 1 (k v)) :
    Eff env low 1 1 (do let v ← pop; k v) :=
  effect_pop.bind 0 1 rfl rfl (.inl rfl) hk

theorem effect_execNot : Eff env low 1 1 (execNot env) := by
  refine effect_pop_convert fun v => ?_
  split
  · exact effect_push _
  · exact .throw _ nofun nofun

/-! ## Conversions -/

section

variable (env)

def castFault (v : Value F) (target : String) : VmError :=
  .typeError ("cannot cast " ++ v.typeName ++ " to " ++ target)

def execIntToFloat : Exec F Unit := do
  match ← pop with
  | .int i => push env (narrowFloat env (env.fo.ofInt i))
  | v => throw (castFault v "Float")

def execFloatToInt : Exec F Unit := do
  match ← pop with
  | .float x => push env (intOf env (env.fo.toInt x))
  | v => throw (castFault v "Word")

def execWordToByte : Exec F Unit := do
  match ← pop with
  | .int i => push env (.byte (UInt8.ofNat (i % 256).toNat))
  | v => throw (castFault v "Byte")

def execByteToWord : Exec F Unit := do
  match ← pop with
  | .byte b => push env (intOf env b.toNat)
  | v => throw (castFault v "Word")

/-- `WordToFixed`, which saturates; a count beyond the wide width saturates by sign. -/
def execWordToFixed (fracBits : ℕ) : Exec F Unit := do
  match ← pop with
  | .int i =>
    if Word.bits (env.runtimeBitsLog2 + 1) ≤ fracBits then
      push env (.fixed (if 0 < i then Word.max env.runtimeBitsLog2
        else if i < 0 then Word.min env.runtimeBitsLog2 else 0))
    else
      push env (.fixed (Word.saturate env.runtimeBitsLog2
        (Word.wrap (env.runtimeBitsLog2 + 1) (i * 2 ^ fracBits))))
  | v => throw (castFault v "Fixed")

def execFixedToWord (fracBits : ℕ) : Exec F Unit := do
  if Word.bits env.runtimeBitsLog2 ≤ fracBits then throw fracBitsFault
  else
    match ← pop with
    | .fixed bits => push env (.int (Word.shiftRight bits fracBits))
    | v => throw (castFault v "Word")

end

theorem effect_execIntToFloat : Eff env low 1 1 (execIntToFloat env) := by
  refine effect_pop_convert fun v => ?_
  split
  · exact effect_push _
  · exact .throw _ nofun nofun

theorem effect_execFloatToInt : Eff env low 1 1 (execFloatToInt env) := by
  refine effect_pop_convert fun v => ?_
  split
  · exact effect_push _
  · exact .throw _ nofun nofun

theorem effect_execWordToByte : Eff env low 1 1 (execWordToByte env) := by
  refine effect_pop_convert fun v => ?_
  split
  · exact effect_push _
  · exact .throw _ nofun nofun

theorem effect_execByteToWord : Eff env low 1 1 (execByteToWord env) := by
  refine effect_pop_convert fun v => ?_
  split
  · exact effect_push _
  · exact .throw _ nofun nofun

theorem effect_execWordToFixed (n : ℕ) : Eff env low 1 1 (execWordToFixed env n) := by
  refine effect_pop_convert fun v => ?_
  split
  · split <;> exact effect_push _
  · exact .throw _ nofun nofun

theorem effect_execFixedToWord (n : ℕ) : Eff env low 1 1 (execFixedToWord env n) := by
  unfold execFixedToWord
  split
  · exact .throw _ nofun nofun
  · refine effect_pop_convert fun v => ?_
    split
    · exact effect_push _
    · exact .throw _ nofun nofun

end Keleusma
