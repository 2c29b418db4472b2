import Keleusma.Bytecode.Instruction
import Keleusma.Logic.PatternMatrix

/-!
# Patterns

The arms of a `match`: what the type checker asks of their patterns (`checkPatternAgainstType`) and
of the arms together (`checkExhaustiveness`), and which arm is run (`selectArm`).
-/

namespace Keleusma.Matching

/-! ## Types -/

/-- A dimension of a type, symbolic within a generic body. -/
inductive ConstDim
  | known (n : ℤ)
  | sym (name : String)
  deriving DecidableEq, Repr

/-- The types of the checker. -/
inductive Ty
  | byte | word | fixed (fracBits : ℕ) | float | bool | unit | str
  | textN (n : ConstDim)
  | tuple (items : List Ty)
  | array (elem : Ty) (n : ConstDim)
  | multiword (n f : ConstDim)
  | option (inner : Ty)
  | struct (name : String) (args : List Ty)
  | enum (name : String) (args : List Ty)
  | newtype (name : String)
  | labelled (inner : Ty) (labels : List String)
  | opaqueType (name : String)
  | var (v : ℕ)
  deriving Repr

/-- A type without the labels around it. -/
def Ty.stripLabels : Ty → Ty
  | .labelled inner _ => inner.stripLabels
  | t => t

mutual

/-- A declared type with the type parameters replaced. -/
def Ty.instantiate (inst : List (ℕ × Ty)) : Ty → Ty
  | .var v => (inst.lookup v).getD (.var v)
  | .tuple items => .tuple (instantiateAll inst items)
  | .array elem n => .array (elem.instantiate inst) n
  | .option inner => .option (inner.instantiate inst)
  | .struct name args => .struct name (instantiateAll inst args)
  | .enum name args => .enum name (instantiateAll inst args)
  | .labelled inner labels => .labelled (inner.instantiate inst) labels
  | t => t

/-- The types of a payload with the type parameters replaced. -/
def Ty.instantiateAll (inst : List (ℕ × Ty)) : List Ty → List Ty
  | [] => []
  | t :: ts => t.instantiate inst :: instantiateAll inst ts

end

theorem Ty.instantiateAll_length {inst : List (ℕ × Ty)} {ts : List Ty} :
    (Ty.instantiateAll inst ts).length = ts.length := by
  induction ts with
  | nil => simp [instantiateAll]
  | cons t ts ih => simp [instantiateAll, ih]

/-- What the type variables stand for. -/
abbrev Subst := List (ℕ × Ty)

/-- A type with the variables at its head resolved. -/
def Subst.resolve (subst : Subst) : ℕ → Ty → Ty
  | 0, t => t.stripLabels
  | n + 1, t =>
    match t.stripLabels with
    | .var v => (subst.lookup v).elim (.var v) (subst.resolve n)
    | t => t

/-- The declared types of a program, and the discriminants that the compiler gives the variants. -/
structure Ctx where
  structs : List (String × List (String × Ty))
  structTypeParamVars : List (String × List ℕ)
  enums : List (String × List (String × List Ty))
  enumTypeParamVars : List (String × List ℕ)
  enumVariantOrder : List (String × List (String × ℤ))

/-- The payload that a variant is declared with. -/
def Ctx.payload (ctx : Ctx) (enumName variant : String) : Option (List Ty) :=
  (ctx.enums.lookup enumName).bind fun variants => variants.lookup variant

/-- The number that stands for a variant, 0 where none is known. -/
def Ctx.discriminant (ctx : Ctx) (enumName variant : String) : ℤ :=
  ((ctx.enumVariantOrder.lookup enumName).bind fun variants => variants.lookup variant).getD 0

/-- The position of a field in a struct. -/
def Ctx.fieldIdx (ctx : Ctx) (name field : String) : Option ℕ :=
  (ctx.structs.lookup name).bind fun fields => (fields.map Prod.fst).idxOf? field

/-! ## Patterns and values -/

/-- The literals of the source; the floats are whatever the host computes with. -/
inductive Literal (F : Type)
  | int (v : ℤ)
  | float (v : F)
  | byte (v : UInt8)
  | fixed (raw : ℤ) (fracBits : ℕ)
  | string (s : String)
  | bool (b : Bool)
  | unit

mutual

/-- The patterns of the source. -/
inductive Pattern (F : Type)
  | literal (lit : Literal F)
  | enum (enumName variant : String) (subPats : List (Pattern F))
  | struct (name : String) (fieldPats : List (FieldPattern F))
  | tuple (parts : List (Pattern F))
  | wildcard
  | binding (name : String)

/-- A field of a struct pattern; without a pattern it binds the field's name. -/
inductive FieldPattern (F : Type)
  | mk (name : String) (pattern : Option (Pattern F))

end

/-- An arm of a `match`, with its guard. -/
structure MatchArm (F G : Type) where
  pattern : Pattern F
  guard : Option G

/-- What a value is made of. No pattern looks into a newtype or into a value of the host, which are
numbered. -/
inductive Constructor (F : Type)
  | byte (b : UInt8) | word (n : ℤ) | fixed (raw : ℤ) | float (x : F) | bool (b : Bool) | unit
  | str (s : String) | text (s : String)
  | tuple | array | multiword
  | struct (name : String)
  | variant (enumName variant : String)
  | atom (k : ℕ)

/-- A value: what it is made of, with its fields. -/
abbrev Datum (F : Type) := ConstructorTree (Constructor F)

variable {F G : Type} [BEq F]

/-- The value of a literal compares equal to a value without fields. -/
def Literal.equals : Literal F → Constructor F → Bool
  | .int v, .word n => n == v
  | .float v, .float x => x == v
  | .byte v, .byte b => b == v
  | .fixed raw _, .fixed r => r == raw
  | .string s, .str t => t == s
  | .bool b, .bool c => c == b
  | .unit, .unit => true
  | _, _ => false

mutual

/-- The test of a pattern. A variant's pattern tests a word against the variant's discriminant. -/
def Pattern.matches (ctx : Ctx) : Pattern F → Datum F → Bool
  | .wildcard, _ | .binding _, _ => true
  | .literal lit, .node c _ => lit.equals c
  | .enum enumName variant subPats, .node c cs =>
    match c with
    | .word n => subPats.isEmpty && n == ctx.discriminant enumName variant
    | .variant e v => enumName == e && variant == v && matchesAll ctx subPats cs
    | _ => false
  | .struct name fieldPats, .node c cs =>
    match c with
    | .struct s => name == s && matchesFields ctx name fieldPats cs
    | _ => false
  | .tuple parts, .node c cs =>
    match c with
    | .tuple => matchesAll ctx parts cs
    | _ => false

/-- The tests of patterns on fields in their order. -/
def Pattern.matchesAll (ctx : Ctx) : List (Pattern F) → List (Datum F) → Bool
  | [], [] => true
  | p :: ps, c :: cs => p.matches ctx c && matchesAll ctx ps cs
  | _, _ => false

/-- The tests of a struct's field patterns. -/
def Pattern.matchesFields (ctx : Ctx) (name : String) :
    List (FieldPattern F) → List (Datum F) → Bool
  | [], _ => true
  | ⟨field, pattern⟩ :: rest, cs =>
    match (ctx.fieldIdx name field).bind (cs[·]?) with
    | none => false
    | some c =>
      (match pattern with
      | none => true
      | some p => p.matches ctx c) && matchesFields ctx name rest cs

end

/-- The arm that a `match` runs: the first whose pattern matches the value and whose guard holds.
Without one the instruction behind the last arm is executed, a trap. -/
def selectArm (ctx : Ctx) (holds : G → Datum F → Bool) (arms : List (MatchArm F G))
    (v : Datum F) : Except TrapKind (MatchArm F G) :=
  match arms.find? fun arm => arm.pattern.matches ctx v && arm.guard.all (holds · v) with
  | some arm => .ok arm
  | none => .error .noMatchingArm

/-! ## The checks -/

/-- What the checker refuses the arms of a `match` for. -/
inductive MatchFault
  | literalType (lit scrutinee : Ty)
  | tupleArity (pattern scrutinee : ℕ)
  | notATuple (scrutinee : Ty)
  | optionArity (variant : String) (pattern : ℕ)
  | optionVariant (variant : String)
  | variantType (enumName variant : String) (scrutinee : Ty)
  | payloadOnWord (enumName variant : String)
  | noVariant (enumName variant : String)
  | variantArity (enumName variant : String) (payload pattern : ℕ)
  | structType (name : String) (scrutinee : Ty)
  | unknownStruct (name : String)
  | noField (name field : String)
  | needsTrueAndFalse
  | unknownEnum (name : String)
  | missingVariants (enumName : String) (variants : List String)
  | needsUnit
  | needsWildcard (scrutinee : Ty)

/-- The type of a literal. -/
def Literal.type : Literal F → Ty
  | .int _ => .word
  | .float _ => .float
  | .byte _ => .byte
  | .fixed _ fracBits => .fixed fracBits
  | .string _ => .str
  | .bool _ => .bool
  | .unit => .unit

/-- Whether the type of a literal is compatible with a type. A variable is bound to it. The type of
a literal has no labels and no variables, so that the check of labels passes and the unifier is left
with equal types. -/
def typesCompatible (subst : Subst) (lit scrutineeTy : Ty) : Option Subst :=
  match lit, subst.resolve subst.length scrutineeTy with
  | _, .var v => some ((v, lit) :: subst)
  | .byte, .byte | .word, .word | .float, .float | .bool, .bool | .unit, .unit | .str, .str =>
    some subst
  | .fixed m, .fixed n => if m = n then some subst else none
  | _, _ => none

mutual

/-- A pattern fits a type. -/
def checkPatternAgainstType (ctx : Ctx) :
    Pattern F → Ty → Subst → Except MatchFault Subst
  | .wildcard, _, subst | .binding _, _, subst => .ok subst
  | .literal lit, scrutineeTy, subst =>
    (typesCompatible subst lit.type scrutineeTy).elim
      (.error (.literalType lit.type scrutineeTy.stripLabels)) .ok
  | .tuple parts, scrutineeTy, subst =>
    match scrutineeTy.stripLabels with
    | .tuple elemTypes =>
      if parts.length ≠ elemTypes.length then .error (.tupleArity parts.length elemTypes.length)
      else checkPatterns ctx parts elemTypes subst
    | .var _ => .ok subst
    | other => .error (.notATuple other)
  | .enum enumName variant subPats, scrutineeTy, subst =>
    if enumName = "Option" then
      match scrutineeTy.stripLabels with
      | .option innerTy =>
        if variant = "None" then
          if subPats.length ≠ 0 then .error (.optionArity variant subPats.length) else .ok subst
        else if variant = "Some" then
          if subPats.length ≠ 1 then .error (.optionArity variant subPats.length)
          else checkPatterns ctx subPats [innerTy] subst
        else .error (.optionVariant variant)
      | .var _ => .ok subst
      | other => .error (.variantType enumName variant other)
    else
      match scrutineeTy.stripLabels with
      | .enum scrutineeName args =>
        if scrutineeName ≠ enumName then
          .error (.variantType enumName variant (.enum scrutineeName args))
        else
          match ctx.payload enumName variant with
          | none => .error (.noVariant enumName variant)
          | some payload =>
            if subPats.length ≠ payload.length then
              .error (.variantArity enumName variant payload.length subPats.length)
            else checkPatterns ctx subPats payload subst
      | .var _ => .ok subst
      | .word =>
        match ctx.payload enumName variant with
        | some [] => .ok subst
        | some _ => .error (.payloadOnWord enumName variant)
        | none => .error (.noVariant enumName variant)
      | other => .error (.variantType enumName variant other)
  | .struct name fieldPats, scrutineeTy, subst =>
    match scrutineeTy.stripLabels with
    | .struct scrutineeName args =>
      if scrutineeName ≠ name then .error (.structType name (.struct scrutineeName args))
      else
        match ctx.structs.lookup name with
        | none => .error (.unknownStruct name)
        | some fields => checkFields ctx name fields fieldPats subst
    | .var _ => .ok subst
    | other => .error (.structType name other)

/-- Patterns fit the types of the fields in their order. -/
def checkPatterns (ctx : Ctx) : List (Pattern F) → List Ty → Subst → Except MatchFault Subst
  | p :: ps, t :: ts, subst =>
    match checkPatternAgainstType ctx p t subst with
    | .ok subst => checkPatterns ctx ps ts subst
    | .error e => .error e
  | _, _, subst => .ok subst

/-- The field patterns of a struct fit the types of its fields. -/
def checkFields (ctx : Ctx) (name : String) (fields : List (String × Ty)) :
    List (FieldPattern F) → Subst → Except MatchFault Subst
  | [], subst => .ok subst
  | ⟨field, pattern⟩ :: rest, subst =>
    match fields.lookup field with
    | none => .error (.noField name field)
    | some fieldTy =>
      match pattern with
      | none => checkFields ctx name fields rest subst
      | some p =>
        match checkPatternAgainstType ctx p fieldTy subst with
        | .ok subst => checkFields ctx name fields rest subst
        | .error e => .error e

end

/-- A pattern that matches everything, as far as its own form says. -/
def Pattern.isCatchall : Pattern F → Bool
  | .wildcard | .binding _ => true
  | _ => false

/-- The patterns of the arms without a guard. -/
def unguarded (arms : List (MatchArm F G)) : List (Pattern F) :=
  (arms.filter (·.guard.isNone)).map (·.pattern)

/-- The variants of an enum that patterns name, whatever their sub-patterns. -/
def coveredVariants (enumName : String) (patterns : List (Pattern F)) : List String :=
  patterns.filterMap fun
    | .enum en variant _ => if en = enumName then some variant else none
    | _ => none

/-- Whether one of the patterns is a given Boolean. -/
def coversBool (b : Bool) (patterns : List (Pattern F)) : Bool :=
  patterns.any fun
    | .literal (.bool c) => c == b
    | _ => false

/-- Whether one of the patterns is the unit literal. -/
def coversUnit (patterns : List (Pattern F)) : Bool :=
  patterns.any fun
    | .literal .unit => true
    | _ => false

/-- The arms are taken to cover the scrutinee's type. -/
def checkExhaustiveness (ctx : Ctx) (arms : List (MatchArm F G)) (scrutineeTy : Ty) :
    Except MatchFault Unit :=
  let patterns := unguarded arms
  if patterns.any Pattern.isCatchall then .ok ()
  else
    match scrutineeTy with
    | .bool =>
      if coversBool true patterns && coversBool false patterns then .ok ()
      else .error .needsTrueAndFalse
    | .enum enumName _ =>
      match ctx.enums.lookup enumName with
      | none => .error (.unknownEnum enumName)
      | some variants =>
        let missing := (variants.map Prod.fst).filter (· ∉ coveredVariants enumName patterns)
        if missing.isEmpty then .ok () else .error (.missingVariants enumName missing)
    | .unit => if coversUnit patterns then .ok () else .error .needsUnit
    | .option _ =>
      let missing := ["Some", "None"].filter (· ∉ coveredVariants "Option" patterns)
      if missing.isEmpty then .ok () else .error (.missingVariants "Option" missing)
    | .var _ => .ok ()
    | other => .error (.needsWildcard other)

/-- The checker accepts the arms of a `match` on a scrutinee. Guards and bodies are typed between
the patterns, each of which meets the variables as they then are. -/
structure MatchAccepted (ctx : Ctx) (arms : List (MatchArm F G)) (scrutineeTy : Ty) : Prop where
  patterns : ∀ arm ∈ arms, ∃ subst subst',
    checkPatternAgainstType ctx arm.pattern scrutineeTy subst = .ok subst'
  exhaustive : checkExhaustiveness ctx arms scrutineeTy = .ok ()

end Keleusma.Matching
