import Keleusma.Runtime.Arithmetic

/-!
# Data and composites

The handlers of the instructions that read and write data slots, and of those that build, take
apart and test composites, with their effects on the operand stack. The accesses to composites
differ in the kind of composite they accept.
-/

namespace Keleusma

open StackEffect

variable {F α : Type} {env : Env F} {low p q : ℕ}

/-! ## Constants and data -/

section

variable (env)

def execPushImmediate (value : ℕ) : Exec F Unit :=
  if value = 0 then push env .unit
  else if value = 1 then push env (.bool true)
  else if value = 2 then push env (.bool false)
  else if value = 3 then push env .none
  else if value ≤ 19 then push env (intOf env (value - 4 : ℕ))
  else throw (.invalidBytecode
    "Op::PushImmediate operand is reserved; valid range is 0..=19")

/-- The four byte limbs of a bound, lowest first, each sign-extended from eight bits. -/
def boundLimbs (bound : ℕ) : List (Value F) :=
  (Word.toLeBytes bound 4).map fun b => intOf env ((b.toNat : Int).bmod 256)

/-- The suffix of an indexed access: the index, the bound's limbs and the invalid flag. -/
def indexSuffix (index : Int) (bound : ℕ) (invalid : Bool) : List (Value F) :=
  .int index :: (boundLimbs env bound ++ [intOf env invalid.toNat])

theorem boundLimbs_length (bound : ℕ) : (boundLimbs env bound).length = 4 := by
  simp [boundLimbs]

theorem indexSuffix_length (index : Int) (bound : ℕ) (invalid : Bool) :
    (indexSuffix env index bound invalid).length = 6 := by
  simp [indexSuffix, boundLimbs_length]

def execGetData (slot : ℕ) : Exec F Unit := do
  if env.dataLen ≤ slot then throw (.invalidBytecode "data slot index out of bounds")
  else push env (← readDataSlot env slot)

def execSetData (slot : ℕ) : Exec F Unit := do
  if env.dataLen ≤ slot then throw (.invalidBytecode "data slot index out of bounds")
  else writeDataSlot env slot (← pop)

/-- `GetDataIndexed`: an invalid index reads the fallback operand. -/
def execGetDataIndexed (base len : ℕ) : Exec F Unit := do
  let fallback ← pop
  match fallback with
  | .int _ | .byte _ | .unit =>
    match ← pop with
    | .int index =>
      if env.dataLen < base + len then
        throw (.invalidBytecode "indexed read span exceeds the data segment")
      else
        let invalid := decide (index < 0 ∨ (len : Int) ≤ index)
        let value ← if invalid then pure fallback else readDataSlot env (base + index.toNat)
        push env value
        pushAll env (indexSuffix env index len invalid)
    | _ => throw (.typeError "indexed read expects a Word index")
  | _ => throw (.typeError "indexed read fallback must be Word, Byte or Unit")

/-- `SetDataIndexed`: an invalid index stores nothing. -/
def execSetDataIndexed (base len : ℕ) : Exec F Unit := do
  match ← pop with
  | .int index =>
    let value ← pop
    if env.dataLen < base + len then
      throw (.invalidBytecode "indexed store span exceeds the data segment")
    else
      let invalid := decide (index < 0 ∨ (len : Int) ≤ index)
      if invalid then pure () else writeDataSlot env (base + index.toNat) value
      pushAll env (indexSuffix env index len invalid)
  | other => throw (.typeError ("SetDataIndexed expected Int index, got " ++ other.typeName))

/-- `BoundsCheck`: report whether the word on top is below the bound, leaving it in place. -/
def execBoundsCheck (bound : ℕ) : Exec F Unit := do
  match ← peekOperand with
  | .int n =>
    let invalid := decide (n < 0 ∨ (bound : Int) ≤ n)
    pushAll env (boundLimbs env bound ++ [intOf env invalid.toNat])
  | other => throw (.typeError ("BoundsCheck expected Int, got " ++ other.typeName))

end

theorem effect_execPushImmediate (n : ℕ) : Eff env low 0 1 (execPushImmediate env n) := by
  unfold execPushImmediate
  split_ifs
  · exact effect_push _
  · exact effect_push _
  · exact effect_push _
  · exact effect_push _
  · exact effect_push _
  · exact .throw _ nofun nofun

theorem effect_execGetData (slot : ℕ) : Eff env low 0 1 (execGetData env slot) := by
  unfold execGetData
  split
  · exact .throw _ nofun nofun
  · exact (effect_readDataSlot slot).bind_neutral fun _ => effect_push _

theorem effect_execSetData (slot : ℕ) : Eff env low 1 0 (execSetData env slot) := by
  unfold execSetData
  split
  · exact .throw _ nofun nofun
  · exact effect_pop.bind 0 0 rfl rfl (.inl rfl) fun _ => effect_writeDataSlot _ _

/-- The suffix of an indexed access. -/
theorem effect_pushAll_suffix (i : Int) (bound : ℕ) (invalid : Bool) :
    Eff env low 0 6 (pushAll env (indexSuffix env i bound invalid)) := by
  have h := @effect_pushAll _ env low (indexSuffix env i bound invalid)
  rwa [indexSuffix_length] at h

theorem effect_execGetDataIndexed (b len : ℕ) : Eff env low 2 7 (execGetDataIndexed env b len) := by
  refine effect_pop.bind 1 7 rfl rfl (.inl rfl) fun fallback => ?_
  split
  all_goals try exact .throw _ nofun nofun
  all_goals
    refine effect_pop.bind 0 7 rfl rfl (.inl rfl) fun index => ?_
    split
    · split
      · exact .throw _ nofun nofun
      · simp only [pure_bind]
        split
        · exact (effect_push _).bind 0 6 rfl rfl (.inr (Nat.zero_le _)) fun _ =>
            effect_pushAll_suffix _ _ _
        · exact (effect_readDataSlot _).bind_neutral fun _ =>
            (effect_push _).bind 0 6 rfl rfl (.inr (Nat.zero_le _)) fun _ =>
              effect_pushAll_suffix _ _ _
    · exact .throw _ nofun nofun

theorem effect_execSetDataIndexed (b len : ℕ) : Eff env low 2 6 (execSetDataIndexed env b len) := by
  refine effect_pop.bind 1 6 rfl rfl (.inl rfl) fun index => ?_
  split
  · refine effect_pop.bind 0 6 rfl rfl (.inl rfl) fun value => ?_
    split
    · exact .throw _ nofun nofun
    · dsimp only
      split
      · exact effect_pushAll_suffix _ _ _
      · exact (effect_writeDataSlot _ _).bind_neutral fun _ => effect_pushAll_suffix _ _ _
  · exact .throw _ nofun nofun

theorem effect_execBoundsCheck (bound : ℕ) : Eff env low 1 6 (execBoundsCheck env bound) := by
  refine effect_peekOperand.bind 0 5 rfl rfl (.inr (Nat.zero_le _)) fun v => ?_
  split
  next n =>
    have h := @effect_pushAll _ env low
      (boundLimbs env bound ++ [intOf env (decide (n < 0 ∨ (bound : Int) ≤ n)).toNat])
    rwa [List.length_append, boundLimbs_length] at h
  · exact .throw _ nofun nofun

/-! ## Composites -/

section

variable (env)

/-- Give the reference values of a flat composite the form its body stores: host objects their
registry index, static text a copy in the arena. -/
def internOperands (values : List (Value F)) : Exec F (List (Value F)) :=
  values.mapM fun
    | .hostObject id => do return .opaqueRef (← inRegistry (Value.internEphemeralOpaque id))
    | .staticStr s => do return .kstr (← inArena "flat text field" (allocText s))
    | v => return v

/-- Build a boxed composite; structs and enums read their names from a template. -/
def newCompositeBoxed (kind : CompositeKind) (template : StructTemplate)
    (values : List (Value F)) : Value F :=
  match kind with
  | .tuple => .tuple values
  | .array => .array values
  | .struct => .struct template.typeName (template.fieldNames.zip values)
  | .enum => .enum template.typeName (template.fieldNames.headD "") 0 0 values

/-- Whether a `NewComposite` packs a flat body: structs and enums as the compiler decided, tuples
and arrays when every element has a flat form. -/
def packsFlat (values : List (Value F)) : NewCompositeOperand → Bool
  | .flat .struct _ _ | .flat .enum _ _ => true
  | .flat .tuple _ _ | .flat .array _ _ => values.all (flatTupleElementWithRefs env.widths)
  | .boxed _ _ _ => false

/-- The size a flat body is padded to. A tuple's or an array's size is that of its elements. -/
def packMinBytes : NewCompositeOperand → ℕ
  | .flat .struct _ byteSize | .flat .enum _ byteSize => byteSize
  | _ => 0

/-- `NewComposite`. -/
def execNewComposite (chunkIdx : ℕ) (operand : NewCompositeOperand) : Exec F Unit := do
  let values ← drain operand.count
  if packsFlat env values operand then
    let values ← internOperands values
    match ← inArena "composite body" (packM env.fo env.widths values (packMinBytes operand)) with
    | some body => push env (.flat operand.kind body)
    | none =>
      match operand.kind with
      | .tuple => push env (.tuple values)
      | .array => push env (.array values)
      | _ => throw (.invalidBytecode "NewComposite flat operand on non-flat values")
  else
    match operand with
    | .boxed kind _ metaIdx =>
      push env (newCompositeBoxed kind (env.structTemplate chunkIdx metaIdx) values)
    | .flat .tuple _ _ => push env (.tuple values)
    | .flat .array _ _ => push env (.array values)
    | .flat _ _ _ => throw (.invalidBytecode "NewComposite non-flat struct or enum operand")

/-- Read a scalar field of a flat body. -/
def execFlatField (body : Handle) (offset : ℕ) (kind : ScalarKind) : Exec F Unit := do
  let bytes ← resolveBody body
  push env (← ofResult (readFlatScalar env.fo env.widths bytes offset kind body.epoch))

/-- View a nested composite of a flat body. -/
def execFlatNested (body : Handle) (offset size : ℕ) (variant : CompositeKind) :
    Exec F Unit := do
  push env (← nestedField body offset size variant)

/-- Read an element of a boxed body by position. -/
def execBoxedAt (elems : List (Value F)) (index : ℕ) : Exec F Unit := do
  match elems[index]? with
  | some v => push env v
  | none => throw (.indexOutOfBounds index elems.length)

/-- The access form does not fit the body. -/
def formMismatch (op body : String) : VmError :=
  .invalidBytecode (op ++ " operand form does not match " ++ body ++ " body")

end

theorem effect_internOperands (values : List (Value F)) : Eff env low 0 0 (internOperands values) :=
  by
  refine .mapM (fun v => ?_) values
  split
  · exact (effect_inRegistry _).bind_neutral fun _ => .pure _
  · exact (effect_inArena (by decide) _).bind_neutral fun _ => .pure _
  · exact .pure _

theorem effect_execNewComposite (chunkIdx : ℕ) (operand : NewCompositeOperand) :
    Eff env low operand.count 1 (execNewComposite env chunkIdx operand) := by
  refine (effect_drain _).bind 0 1 rfl rfl (.inl rfl) fun values => ?_
  split
  · refine (effect_internOperands _).bind_neutral fun values =>
      (effect_inArena (by decide) _).bind_neutral fun body => ?_
    split
    · exact effect_push _
    · split
      · exact effect_push _
      · exact effect_push _
      · exact .throw _ nofun nofun
  · split
    · exact effect_push _
    · exact effect_push _
    · exact effect_push _
    · exact .throw _ nofun nofun

/-- A scalar field that cannot be read is the fault of the bytecode. -/
theorem readFlatScalar_error {w : Widths} {fo : FloatOps F} {bytes : List UInt8} {offset ep : ℕ}
    {kind : ScalarKind} {e : VmError} (h : readFlatScalar fo w bytes offset kind ep = .error e) :
    ∃ text, e = .invalidBytecode text := by
  unfold readFlatScalar at h
  split at h
  · split at h
    · cases h
      exact ⟨_, rfl⟩
    · split at h <;> cases h
      exact ⟨_, rfl⟩
  · split at h
    · split at h <;> cases h
    · cases h
      exact ⟨_, rfl⟩
  · cases hr : readScalarLe fo w bytes offset kind with
    | error e =>
      rw [hr] at h
      cases e <;> cases h <;> exact ⟨_, rfl⟩
    | ok v =>
      rw [hr] at h
      cases h

theorem effect_readFlatScalar (bytes : List UInt8) (offset : ℕ) (kind : ScalarKind) (ep : ℕ) :
    Eff env low 0 0 (ofResult (readFlatScalar env.fo env.widths bytes offset kind ep) :
      Exec F (Value F)) := by
  unfold ofResult
  split
  · exact .pure _
  next e he =>
    obtain ⟨text, rfl⟩ := readFlatScalar_error he
    exact .throw _ nofun nofun

theorem effect_execFlatField (body : Handle) (offset : ℕ) (kind : ScalarKind) :
    Eff env low 0 1 (execFlatField env body offset kind) :=
  (effect_resolveBody _).bind_neutral fun _ =>
    (effect_readFlatScalar _ _ _ _).bind_neutral fun _ => effect_push _

theorem effect_execFlatNested (body : Handle) (offset size : ℕ) (variant : CompositeKind) :
    Eff env low 0 1 (execFlatNested env body offset size variant) :=
  (effect_nestedField _ _ _ _).bind_neutral fun _ => effect_push _

theorem effect_execBoxedAt (elems : List (Value F)) (i : ℕ) :
    Eff env low 0 1 (execBoxedAt env elems i) := by
  unfold execBoxedAt
  split
  · exact effect_push _
  · exact .throw _ nofun nofun

section

variable (env)

/-- `GetField`. -/
def execGetField (chunkIdx : ℕ) (field : StructField) : Exec F Unit := do
  match ← pop with
  | .flat .struct body =>
    match field with
    | .flat offset kind => execFlatField env body offset kind
    | .flatNested offset size variant => execFlatNested env body offset size variant
    | .boxed _ => throw (formMismatch "GetField" "struct")
  | .struct typeName fields =>
    match field with
    | .boxed nameConst =>
      match env.chunkConstStr chunkIdx nameConst with
      | none => throw (.invalidBytecode "field name not a string")
      | some name =>
        match fields.lookup name with
        | some v => push env v
        | none => throw (.fieldNotFound typeName name)
    | _ => throw (formMismatch "GetField" "struct")
  | v => throw (.typeError ("cannot access field on " ++ v.typeName))

/-- `GetTupleField`. -/
def execGetTupleField (field : TupleField) : Exec F Unit := do
  match ← pop with
  | .flat .tuple body =>
    match field with
    | .flat offset kind => execFlatField env body offset kind
    | .flatNested offset size variant => execFlatNested env body offset size variant
    | .boxed _ => throw (formMismatch "GetTupleField" "tuple")
  | .tuple elems =>
    match field with
    | .boxed index => execBoxedAt env elems index
    | _ => throw (formMismatch "GetTupleField" "tuple")
  | v => throw (.typeError ("cannot tuple-index " ++ v.typeName))

/-- `GetEnumField`. -/
def execGetEnumField (field : EnumField) : Exec F Unit := do
  match ← pop with
  | .flat .enum body =>
    match field with
    | .flat offset kind => execFlatField env body offset kind
    | .flatNested offset size variant => execFlatNested env body offset size variant
    | .boxed _ => throw (formMismatch "GetEnumField" "enum")
  | .enum _ _ _ _ fields =>
    match field with
    | .boxed index => execBoxedAt env fields index
    | _ => throw (formMismatch "GetEnumField" "enum")
  | v => throw (.typeError ("cannot enum-field " ++ v.typeName))

end

theorem effect_execGetField (chunkIdx : ℕ) (field : StructField) :
    Eff env low 1 1 (execGetField env chunkIdx field) := by
  refine effect_pop_convert fun v => ?_
  split
  · split
    · exact effect_execFlatField _ _ _
    · exact effect_execFlatNested _ _ _ _
    · exact .throw _ nofun nofun
  · split
    · split
      · exact .throw _ nofun nofun
      · split
        · exact effect_push _
        · exact .throw _ nofun nofun
    · exact .throw _ nofun nofun
  · exact .throw _ nofun nofun

theorem effect_execGetTupleField (field : TupleField) :
    Eff env low 1 1 (execGetTupleField env field) := by
  refine effect_pop_convert fun v => ?_
  split
  · split
    · exact effect_execFlatField _ _ _
    · exact effect_execFlatNested _ _ _ _
    · exact .throw _ nofun nofun
  · split
    · exact effect_execBoxedAt _ _
    · exact .throw _ nofun nofun
  · exact .throw _ nofun nofun

theorem effect_execGetEnumField (field : EnumField) :
    Eff env low 1 1 (execGetEnumField env field) := by
  refine effect_pop_convert fun v => ?_
  split
  · split
    · exact effect_execFlatField _ _ _
    · exact effect_execFlatNested _ _ _ _
    · exact .throw _ nofun nofun
  · split
    · exact effect_execBoxedAt _ _
    · exact .throw _ nofun nofun
  · exact .throw _ nofun nofun

/-! ## Indexed reads -/

section

variable (env)

/-- The bound an indexed read reports has thirty-two bits. -/
def indexOutcomeBound (len : ℕ) : Except VmError ℕ :=
  if len < 2 ^ 32 then .ok len
  else .error (.invalidBytecode "array length exceeds the diagnostic representation")

/-- Push an element, or its placeholder, followed by the index outcome. -/
def pushIndexOutcome (value : Value F) (index : Int) (bound : ℕ) (invalid : Bool) :
    Exec F Unit := do
  push env value
  pushAll env (indexSuffix env index bound invalid)

/-- Index a boxed array; an invalid index reads `Unit`. -/
def execIndexBoxed (elems : List (Value F)) (i : Int) : Exec F Unit := do
  let bound ← ofResult (indexOutcomeBound elems.length)
  let invalid := decide (i < 0 ∨ (bound : Int) ≤ i)
  let value := if invalid then .unit else elems.getD i.toNat .unit
  pushIndexOutcome env value i bound invalid

/-- Index a flat array of scalars. Words and bytes report a bounds outcome, other kinds fault on
an invalid index, and a kind of no bytes has no length to check. -/
def execIndexFlat (elem : ArrayElem) (kind : ScalarKind) (body : Handle) (i : Int) :
    Exec F Unit := do
  let esize := env.widths.size kind
  let bytes ← resolveBody body
  let read (offset : ℕ) : Exec F (Value F) :=
    ofResult (readFlatScalar env.fo env.widths bytes offset kind body.epoch)
  if esize = 0 then
    if i < 0 then throw (.indexOutOfBounds i 0) else push env (← read 0)
  else if elem.hasBoundsOutcome then
    if bytes.length % esize ≠ 0 then
      throw (.invalidBytecode "array body is not a multiple of its element stride")
    else
      let bound ← ofResult (indexOutcomeBound (bytes.length / esize))
      let invalid := decide (i < 0 ∨ (bound : Int) ≤ i)
      let value ←
        if invalid then pure (if kind = .byte then .byte 0 else intOf env 0)
        else read (i.toNat * esize)
      pushIndexOutcome env value i bound invalid
  else
    if i < 0 ∨ (bytes.length / esize : ℕ) ≤ i then
      throw (.indexOutOfBounds i (bytes.length / esize))
    else push env (← read (i.toNat * esize))

/-- Index a flat array of composites; an invalid index reads a zeroed placeholder. -/
def execIndexNested (body : Handle) (size : ℕ) (variant : CompositeKind) (i : Int) :
    Exec F Unit := do
  let bound ← ofResult (indexOutcomeBound (body.len / size))
  let invalid := decide (i < 0 ∨ (bound : Int) ≤ i)
  let value ←
    if invalid then
      let zeroed ← inArena "index placeholder" fun a => a.build (List.replicate size 0)
      nestedField zeroed 0 size variant
    else nestedField body (i.toNat * size) size variant
  pushIndexOutcome env value i bound invalid

/-- `GetIndex`. -/
def execGetIndex (elem : ArrayElem) : Exec F Unit := do
  let index ← pop
  let container ← pop
  match container, index with
  | .array elems, .int i =>
    match elem with
    | .boxed => execIndexBoxed env elems i
    | _ => throw (formMismatch "GetIndex" "array")
  | .flat .array body, .int i =>
    match elem with
    | .flat kind => execIndexFlat env elem kind body i
    | .flatNested size variant => execIndexNested env body size variant i
    | .boxed => throw (formMismatch "GetIndex" "array")
  | c, i => throw (.typeError ("cannot index " ++ c.typeName ++ " with " ++ i.typeName))

end

theorem effect_indexOutcomeBound (len : ℕ) :
    Eff env low 0 0 (ofResult (indexOutcomeBound len) : Exec F ℕ) := by
  unfold indexOutcomeBound
  split
  · exact .pure _
  · exact .throw _ nofun nofun

theorem effect_pushIndexOutcome (v : Value F) (i : Int) (bound : ℕ) (invalid : Bool) :
    Eff env low 0 7 (pushIndexOutcome env v i bound invalid) :=
  (effect_push _).bind 0 6 rfl rfl (.inr (Nat.zero_le _)) fun _ => effect_pushAll_suffix _ _ _

theorem effect_execIndexBoxed (elems : List (Value F)) (i : Int) :
    Eff env low 0 7 (execIndexBoxed env elems i) :=
  (effect_indexOutcomeBound _).bind_neutral fun _ => effect_pushIndexOutcome _ _ _ _

theorem effect_execIndexNested (body : Handle) (size : ℕ) (variant : CompositeKind) (i : Int) :
    Eff env low 0 7 (execIndexNested env body size variant i) := by
  refine (effect_indexOutcomeBound _).bind_neutral fun bound => ?_
  dsimp only
  split
  · exact (effect_inArena (by decide) _).bind_neutral fun _ =>
      (effect_nestedField _ _ _ _).bind_neutral fun _ => effect_pushIndexOutcome _ _ _ _
  · exact (effect_nestedField _ _ _ _).bind_neutral fun _ => effect_pushIndexOutcome _ _ _ _

/-- What an indexed read leaves: the value, and the index outcome when it reports one. The read
of an element that occupies no bytes reports none. -/
def ArrayElem.results (env : Env F) : ArrayElem → ℕ
  | .flat kind =>
    if env.widths.size kind = 0 then 1
    else if (ArrayElem.flat kind).hasBoundsOutcome then 7 else 1
  | _ => 7

theorem effect_execIndexFlat (kind : ScalarKind) (body : Handle) (i : Int) :
    Eff env low 0 ((ArrayElem.flat kind).results env) (execIndexFlat env (.flat kind) kind body i) := by
  refine (effect_resolveBody _).bind_neutral fun bytes => ?_
  simp only [pure_bind, ArrayElem.results]
  split
  · split
    · exact .throw _ nofun nofun
    · exact (effect_readFlatScalar _ _ _ _).bind_neutral fun _ => effect_push _
  · split
    · split
      · exact .throw _ nofun nofun
      · refine (effect_indexOutcomeBound _).bind_neutral fun bound => ?_
        split
        · exact effect_pushIndexOutcome _ _ _ _
        · exact (effect_readFlatScalar _ _ _ _).bind_neutral fun _ =>
            effect_pushIndexOutcome _ _ _ _
    · split
      · exact .throw _ nofun nofun
      · exact (effect_readFlatScalar _ _ _ _).bind_neutral fun _ => effect_push _

theorem effect_execGetIndex (elem : ArrayElem) :
    Eff env low 2 (elem.results env) (execGetIndex env elem) := by
  refine effect_pop_pop fun index container => ?_
  split
  · cases elem with
    | flat kind => exact .throw _ nofun nofun
    | flatNested size variant => exact .throw _ nofun nofun
    | boxed => exact effect_execIndexBoxed _ _
  · cases elem with
    | flat kind => exact effect_execIndexFlat _ _ _
    | flatNested size variant => exact effect_execIndexNested _ _ _ _
    | boxed => exact .throw _ nofun nofun
  · exact .throw _ nofun nofun

/-! ## Tests -/

section

variable (env)

/-- `Len`. -/
def execLen : Exec F Unit := do
  let v ← pop
  match v with
  | .array elems => push env (intOf env elems.length)
  | .tuple elems => push env (intOf env elems.length)
  | .flat .array _ =>
    throw (.invalidBytecode "Op::Len on a flat array; length is a compile-time constant")
  | .flat .tuple _ =>
    throw (.invalidBytecode "Op::Len on a flat tuple; arity is a compile-time constant")
  | v =>
    match v.strBytes (← get).arena with
    | some (some bytes) => push env (intOf env (charCount bytes))
    | some none => throw staleText
    | none => throw (.typeError ("cannot get length of " ++ v.typeName))

/-- `IsEnum`: the names of a boxed enum, the discriminant word of a flat one, and the scalar
`None` as the empty option. -/
def execIsEnum (chunkIdx enumConst varConst discConst : ℕ) : Exec F Unit := do
  match env.chunkConst chunkIdx discConst with
  | .int expectedDisc =>
    let expectedType := env.chunkConstStr chunkIdx enumConst
    let expectedVar := env.chunkConstStr chunkIdx varConst
    let isMatch ← match ← peekOperand with
      | .enum typeName variant _ _ _ =>
        pure (expectedType == some typeName && expectedVar == some variant)
      | .flat .enum body =>
        match (← get).arena.resolve body with
        | none => pure false
        | some bytes =>
          match ← ofScalar (readScalarLe env.fo env.widths bytes 0 .int) with
          | .int stored => pure (stored == expectedDisc)
          | _ => pure (0 == expectedDisc)
      | .none => pure (expectedType == some "Option" && expectedVar == some "None")
      | _ => pure false
    push env (.bool isMatch)
  | _ => throw (.invalidBytecode "enum discriminant const must be an Int")

/-- `IsStruct`. -/
def execIsStruct (chunkIdx typeConst : ℕ) : Exec F Unit := do
  match env.chunkConstStr chunkIdx typeConst with
  | none => throw (.invalidBytecode "type const not string")
  | some expected =>
    match ← peekOperand with
    | .struct typeName _ => push env (.bool (typeName == expected))
    | .flat .struct _ => throw (.invalidBytecode
        "Op::IsStruct on a flat struct; the type test is a compile-time constant")
    | _ => push env (.bool false)

end

theorem effect_execLen : Eff env low 1 1 (execLen env) := by
  refine effect_pop_convert fun v => ?_
  split
  · exact effect_push _
  · exact effect_push _
  · exact .throw _ nofun nofun
  · exact .throw _ nofun nofun
  · refine .get_bind (fun _ => rfl) fun s => ?_
    split
    · exact effect_push _
    · exact .throw _ nofun nofun
    · exact .throw _ nofun nofun

theorem effect_execIsStruct (chunkIdx t : ℕ) : Eff env low 1 2 (execIsStruct env chunkIdx t) := by
  unfold execIsStruct
  split
  · exact .throw _ nofun nofun
  · refine effect_peekOperand.bind 0 1 rfl rfl (.inr (Nat.zero_le _)) fun v => ?_
    split
    · exact effect_push _
    · exact .throw _ nofun nofun
    · exact effect_push _

theorem effect_execIsEnum (chunkIdx e v d : ℕ) : Eff env low 1 2 (execIsEnum env chunkIdx e v d) :=
  by
  unfold execIsEnum
  split
  · dsimp only
    refine effect_peekOperand.bind 0 1 rfl rfl (.inr (Nat.zero_le _)) fun v => ?_
    split
    · exact effect_push _
    · refine .get_bind (fun _ => rfl) fun s => ?_
      split
      · exact effect_push _
      · refine (effect_ofScalar _).bind_neutral fun w => ?_
        split
        · exact effect_push _
        · exact effect_push _
    · exact effect_push _
    · exact effect_push _
  · exact .throw _ nofun nofun

end Keleusma
