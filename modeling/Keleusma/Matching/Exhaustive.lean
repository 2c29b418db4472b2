import Keleusma.Matching.Patterns

/-!
# Exhaustiveness

A `match` traps when no arm matches. `checkExhaustiveness` takes a variant for covered as soon as an
arm without a guard names it, and does not look at what the arm asks of the payload.
`exhaustive_iff` says which of the accepted matches do have an arm for every value: those with a
catch-all, and those in which the sub-patterns for each variant cover its payload.
-/

namespace Keleusma.Matching

open PatternLanguage

/-! ## Values of types -/

/-- What a runtime has for words, and for newtypes and the types of the host. -/
structure Domain where
  wordBits : ℕ
  atoms : String → ℕ → Prop

/-- A word of the runtime. -/
def Domain.IsWord (dom : Domain) (n : ℤ) : Prop :=
  -2 ^ (dom.wordBits - 1) ≤ n ∧ n < 2 ^ (dom.wordBits - 1)

/-- The constructors of each type, with the types of their fields. A type variable has none. -/
inductive Builds {F : Type} (ctx : Ctx) (dom : Domain) : Ty → Constructor F → List Ty → Prop
  | byte (b : UInt8) : Builds ctx dom .byte (.byte b) []
  | word {n : ℤ} (h : dom.IsWord n) : Builds ctx dom .word (.word n) []
  | fixed {fracBits : ℕ} {raw : ℤ} (h : dom.IsWord raw) :
    Builds ctx dom (.fixed fracBits) (.fixed raw) []
  | float (x : F) : Builds ctx dom .float (.float x) []
  | bool (b : Bool) : Builds ctx dom .bool (.bool b) []
  | unit : Builds ctx dom .unit .unit []
  | str (s : String) : Builds ctx dom .str (.str s) []
  | textN {s : String} {n : ℤ} (h : (s.utf8ByteSize : ℤ) ≤ n) :
    Builds ctx dom (.textN (.known n)) (.text s) []
  | tuple (items : List Ty) : Builds ctx dom (.tuple items) .tuple items
  | array (elem : Ty) (n : ℤ) :
    Builds ctx dom (.array elem (.known n)) .array (List.replicate n.toNat elem)
  | multiword (n f : ℤ) :
    Builds ctx dom (.multiword (.known n) (.known f)) .multiword (List.replicate n.toNat .word)
  | optionNone (t : Ty) : Builds ctx dom (.option t) (.variant "Option" "None") []
  | optionSome (t : Ty) : Builds ctx dom (.option t) (.variant "Option" "Some") [t]
  | struct {name : String} {args : List Ty} {fields : List (String × Ty)}
    (h : ctx.structs.lookup name = some fields) :
    Builds ctx dom (.struct name args) (.struct name)
      (Ty.instantiateAll (((ctx.structTypeParamVars.lookup name).getD []).zip args)
        (fields.map Prod.snd))
  | enum {name variant : String} {args payload : List Ty}
    (h : ctx.payload name variant = some payload) :
    Builds ctx dom (.enum name args) (.variant name variant)
      (Ty.instantiateAll (((ctx.enumTypeParamVars.lookup name).getD []).zip args) payload)
  | newtype {name : String} {k : ℕ} (h : dom.atoms name k) :
    Builds ctx dom (.newtype name) (.atom k) []
  | opaqueType {name : String} {k : ℕ} (h : dom.atoms name k) :
    Builds ctx dom (.opaqueType name) (.atom k) []
  | labelled {t : Ty} {labels : List String} {c : Constructor F} {fields : List Ty}
    (h : Builds ctx dom t c fields) : Builds ctx dom (.labelled t labels) c fields

/-! ## Patterns at a constructor -/

variable {F G : Type} {ctx : Ctx}

/-- What the field patterns of a struct ask of its fields. -/
def fieldCells (ctx : Ctx) (name : String) (n : ℕ) :
    List (FieldPattern F) → Option (List (List (Pattern F)))
  | [] => some (List.replicate n [])
  | ⟨field, pattern⟩ :: rest =>
    (ctx.fieldIdx name field).bind fun i =>
      if i < n then
        (fieldCells ctx name n rest).map fun cells =>
          pattern.elim cells fun p => cells.modify i (p :: ·)
      else none

/-- What a pattern asks of the fields of a constructor, if it matches the constructor. -/
def Pattern.view [BEq F] (ctx : Ctx) :
    Pattern F → Constructor F → ℕ → Option (List (List (Pattern F)))
  | .wildcard, _, n | .binding _, _, n => some (List.replicate n [])
  | .literal lit, c, n => if lit.equals c then some (List.replicate n []) else none
  | .enum enumName variant subPats, c, n =>
    match c with
    | .word v =>
      if subPats.isEmpty && v == ctx.discriminant enumName variant then some (List.replicate n [])
      else none
    | .variant e v =>
      if enumName = e ∧ variant = v ∧ subPats.length = n then some (subPats.map ([·])) else none
    | _ => none
  | .struct name fieldPats, c, n =>
    match c with
    | .struct s => if name = s then fieldCells ctx name n fieldPats else none
    | _ => none
  | .tuple parts, c, n =>
    match c with
    | .tuple => if parts.length = n then some (parts.map ([·])) else none
    | _ => none

theorem fieldCells_length {name : String} {n : ℕ} {fps : List (FieldPattern F)}
    {cells : List (List (Pattern F))} (h : fieldCells ctx name n fps = some cells) :
    cells.length = n := by
  induction fps generalizing cells with
  | nil =>
    obtain rfl := Option.some.inj h
    exact List.length_replicate
  | cons fp fps ih =>
    obtain ⟨field, pattern⟩ := fp
    obtain ⟨i, -, h⟩ := Option.bind_eq_some_iff.mp h
    split_ifs at h with hi
    obtain ⟨rest, hrest, rfl⟩ := Option.map_eq_some_iff.mp h
    cases pattern with
    | none => exact ih hrest
    | some p => exact (List.length_modify ..).trans (ih hrest)

theorem Pattern.sizeOf_pos (p : Pattern F) : 0 < sizeOf p := by
  cases p
  all_goals
    simp only [literal.sizeOf_spec, enum.sizeOf_spec, struct.sizeOf_spec, tuple.sizeOf_spec,
      wildcard.sizeOf_spec, binding.sizeOf_spec]
    omega

theorem fieldCells_size {name : String} {n : ℕ} {fps : List (FieldPattern F)}
    {cells : List (List (Pattern F))} (h : fieldCells ctx name n fps = some cells) :
    rowSize sizeOf cells < sizeOf fps := by
  induction fps generalizing cells with
  | nil =>
    obtain rfl := Option.some.inj h
    rw [rowSize_blank]
    simp
  | cons fp fps ih =>
    obtain ⟨field, pattern⟩ := fp
    obtain ⟨i, -, h⟩ := Option.bind_eq_some_iff.mp h
    split_ifs at h with hi
    obtain ⟨rest, hrest, rfl⟩ := Option.map_eq_some_iff.mp h
    have := ih hrest
    cases pattern with
    | none =>
      simp only [Option.elim_none, List.cons.sizeOf_spec]
      omega
    | some p =>
      rw [Option.elim_some, rowSize_modify (by rwa [fieldCells_length hrest])]
      simp only [List.cons.sizeOf_spec, FieldPattern.mk.sizeOf_spec, Option.some.sizeOf_spec]
      omega

theorem rowSize_singletons {ps : List (Pattern F)} :
    rowSize sizeOf (ps.map ([·])) < sizeOf ps := by
  induction ps with
  | nil => simp [rowSize]
  | cons p ps ih =>
    rw [List.map_cons, rowSize_cons]
    simp only [List.map_cons, List.map_nil, List.sum_cons, List.sum_nil, List.cons.sizeOf_spec]
    omega

section View

variable [BEq F] {p : Pattern F} {c : Constructor F} {n : ℕ} {cells : List (List (Pattern F))}

/-- The views of a pattern: it asks nothing, or it asks one thing of each field, or it asks what the
field patterns of a struct do. -/
theorem Pattern.view_cases (h : p.view ctx c n = some cells) :
    cells = List.replicate n [] ∨
    (∃ ps : List (Pattern F), cells = ps.map ([·]) ∧ ps.length = n ∧ sizeOf ps < sizeOf p) ∨
    ∃ name fps, fieldCells ctx name n fps = some cells ∧ sizeOf fps < sizeOf p := by
  unfold Pattern.view at h
  split at h
  · exact .inl (Option.some.inj h).symm
  · exact .inl (Option.some.inj h).symm
  · split_ifs at h
    exact .inl (Option.some.inj h).symm
  · split at h
    · split_ifs at h
      exact .inl (Option.some.inj h).symm
    · split_ifs at h with hn
      refine .inr (.inl ⟨_, (Option.some.inj h).symm, hn.2.2, ?_⟩)
      simp only [Pattern.enum.sizeOf_spec]
      omega
    · cases h
  · split at h
    · split_ifs at h
      refine .inr (.inr ⟨_, _, h, ?_⟩)
      simp only [Pattern.struct.sizeOf_spec]
      omega
    · cases h
  · split at h
    · split_ifs at h with hn
      refine .inr (.inl ⟨_, (Option.some.inj h).symm, hn, ?_⟩)
      simp only [Pattern.tuple.sizeOf_spec]
      omega
    · cases h

theorem Pattern.view_length (h : p.view ctx c n = some cells) : cells.length = n := by
  obtain rfl | ⟨ps, rfl, hlen, -⟩ | ⟨name, fps, hcells, -⟩ := Pattern.view_cases h
  · exact List.length_replicate
  · rw [List.length_map, hlen]
  · exact fieldCells_length hcells

theorem Pattern.view_size (h : p.view ctx c n = some cells) : rowSize sizeOf cells < sizeOf p := by
  obtain rfl | ⟨ps, rfl, -, hsize⟩ | ⟨name, fps, hcells, hsize⟩ := Pattern.view_cases h
  · rw [rowSize_blank]
    exact p.sizeOf_pos
  · exact rowSize_singletons.trans hsize
  · exact (fieldCells_size hcells).trans hsize

end View

/-- The types and the patterns of a program. -/
noncomputable def language [BEq F] (ctx : Ctx) (dom : Domain) :
    PatternLanguage Ty (Constructor F) (Pattern F) where
  builds := Builds ctx dom
  view := Pattern.view ctx
  size := sizeOf
  size_pos := Pattern.sizeOf_pos
  view_length := Pattern.view_length
  view_size := Pattern.view_size

/-! ## The test of a pattern -/

section Test

variable [BEq F] {dom : Domain} {cs : List (Datum F)} {v : Datum F}

omit [BEq F] in
theorem exists_guarded {α : Type} {b : Prop} [Decidable b] {x : α} {R : α → Prop} :
    (∃ y, (if b then some x else none) = some y ∧ R y) ↔ b ∧ R x := by
  split_ifs with h
  · simp [h]
  · simp [h]

mutual

/-- The test of a pattern succeeds on the values that it matches. -/
theorem matches_iff : ∀ (p : Pattern F) (v : Datum F),
    p.matches ctx v ↔ (language ctx dom).Matches p v
  | p, .node c cs => by
    rw [matches_node]
    have hblank : (language ctx dom).RowMatches (List.replicate cs.length []) cs :=
      rowMatches_blank
    match p with
    | .wildcard | .binding _ => exact ⟨fun _ => ⟨_, rfl, hblank⟩, fun _ => rfl⟩
    | .literal lit =>
      change lit.equals c = true ↔ ∃ cells, (if lit.equals c then _ else none) = some cells ∧ _
      rw [exists_guarded]
      exact ⟨fun h => ⟨h, hblank⟩, And.left⟩
    | .enum enumName variant subPats =>
      have hsub := matchesAll_iff subPats cs
      cases c with
      | word n =>
        change (subPats.isEmpty && n == ctx.discriminant enumName variant) = true ↔
          ∃ cells, (if subPats.isEmpty && n == ctx.discriminant enumName variant then _ else none) =
            some cells ∧ _
        rw [exists_guarded]
        exact ⟨fun h => ⟨h, hblank⟩, And.left⟩
      | variant e v =>
        change (enumName == e && variant == v && Pattern.matchesAll ctx subPats cs) = true ↔
          ∃ cells, (if enumName = e ∧ variant = v ∧ subPats.length = cs.length then _ else none) =
            some cells ∧ _
        rw [exists_guarded, Bool.and_eq_true, Bool.and_eq_true, beq_iff_eq, beq_iff_eq, hsub]
        constructor
        · rintro ⟨⟨he, hv⟩, hrow⟩
          exact ⟨⟨he, hv, by rw [← hrow.length_eq, List.length_map]⟩, hrow⟩
        · rintro ⟨⟨he, hv, -⟩, hrow⟩
          exact ⟨⟨he, hv⟩, hrow⟩
      | _ => exact ⟨fun h => (Bool.false_ne_true h).elim, fun ⟨_, h, _⟩ => by cases h⟩
    | .struct name fieldPats =>
      have hfields := matchesFields_iff name fieldPats cs
      cases c with
      | struct s =>
        change (name == s && Pattern.matchesFields ctx name fieldPats cs) = true ↔
          ∃ cells, (if name = s then _ else none) = some cells ∧ _
        rw [Bool.and_eq_true, beq_iff_eq, hfields]
        split_ifs with h
        · exact ⟨And.right, fun hcells => ⟨h, hcells⟩⟩
        · exact ⟨fun hs => absurd hs.1 h, fun ⟨_, hnone, _⟩ => by cases hnone⟩
      | _ => exact ⟨fun h => (Bool.false_ne_true h).elim, fun ⟨_, h, _⟩ => by cases h⟩
    | .tuple parts =>
      have hparts := matchesAll_iff parts cs
      cases c with
      | tuple =>
        change Pattern.matchesAll ctx parts cs = true ↔
          ∃ cells, (if parts.length = cs.length then _ else none) = some cells ∧ _
        rw [exists_guarded, hparts]
        exact ⟨fun hrow => ⟨by rw [← hrow.length_eq, List.length_map], hrow⟩, And.right⟩
      | _ => exact ⟨fun h => (Bool.false_ne_true h).elim, fun ⟨_, h, _⟩ => by cases h⟩

/-- The tests of patterns on fields in their order. -/
theorem matchesAll_iff : ∀ (ps : List (Pattern F)) (cs : List (Datum F)),
    Pattern.matchesAll ctx ps cs ↔ (language ctx dom).RowMatches (ps.map ([·])) cs
  | [], [] => ⟨fun _ => .nil, fun _ => rfl⟩
  | [], _ :: _ => ⟨fun h => (Bool.false_ne_true h).elim, fun h => by cases h⟩
  | _ :: _, [] => ⟨fun h => (Bool.false_ne_true h).elim, fun h => by cases h⟩
  | p :: ps, c :: cs => by
    have hp := matches_iff p c
    have hps := matchesAll_iff ps cs
    rw [List.map_cons, PatternLanguage.RowMatches, List.forall₂_cons, List.forall_mem_singleton,
      ← hp, Pattern.matchesAll, Bool.and_eq_true, hps]
    rfl

/-- The tests of the field patterns of a struct. -/
theorem matchesFields_iff (name : String) :
    ∀ (fps : List (FieldPattern F)) (cs : List (Datum F)),
    Pattern.matchesFields ctx name fps cs ↔
      ∃ cells, fieldCells ctx name cs.length fps = some cells ∧
        (language ctx dom).RowMatches cells cs
  | [], cs => ⟨fun _ => ⟨_, rfl, rowMatches_blank⟩, fun _ => rfl⟩
  | ⟨field, pattern⟩ :: fps, cs => by
    have hrest := matchesFields_iff name fps cs
    rw [Pattern.matchesFields, fieldCells]
    cases hidx : ctx.fieldIdx name field with
    | none => exact ⟨fun h => (Bool.false_ne_true h).elim, fun ⟨_, h, _⟩ => by cases h⟩
    | some i =>
      rw [Option.bind_some, Option.bind_some]
      by_cases hi : i < cs.length
      · have hc : cs[i]? = some cs[i] := List.getElem?_eq_getElem hi
        rw [hc, if_pos hi]
        simp only [Bool.and_eq_true, hrest, Option.map_eq_some_iff]
        match pattern with
        | none =>
          constructor
          · rintro ⟨-, cells, hcells, hrow⟩
            exact ⟨cells, ⟨cells, hcells, rfl⟩, hrow⟩
          · rintro ⟨_, ⟨cells, hcells, rfl⟩, hrow⟩
            exact ⟨rfl, cells, hcells, hrow⟩
        | some p =>
          rw [matches_iff p cs[i]]
          constructor
          · rintro ⟨hp, cells, hcells, hrow⟩
            exact ⟨_, ⟨cells, hcells, rfl⟩,
              (rowMatches_modify (fieldCells_length hcells) hc).mpr ⟨hp, hrow⟩⟩
          · rintro ⟨_, ⟨cells, hcells, rfl⟩, hrow⟩
            obtain ⟨hp, hrow⟩ :=
              (rowMatches_modify (fieldCells_length hcells) hc).mp hrow
            exact ⟨hp, cells, hcells, hrow⟩
      · rw [List.getElem?_eq_none (Nat.le_of_not_lt hi), if_neg hi]
        exact ⟨fun h => (Bool.false_ne_true h).elim, fun ⟨_, h, _⟩ => by cases h⟩

end

end Test

/-! ## Which accepted matches are exhaustive -/

section Exhaustive

variable [BEq F] {dom : Domain} {arms : List (MatchArm F G)} {ty : Ty} {v : Datum F}

/-- The values of a type. -/
def HasType (ctx : Ctx) (dom : Domain) (v : Datum F) (ty : Ty) : Prop :=
  (language ctx dom).Typed v ty

/-- An arm without a guard matches the value. -/
def SomeArmMatches (ctx : Ctx) (arms : List (MatchArm F G)) (v : Datum F) : Prop :=
  ∃ arm ∈ arms, arm.guard = none ∧ arm.pattern.matches ctx v

/-- The sub-patterns that patterns have for a variant. -/
def payloadRows (enumName variant : String) (patterns : List (Pattern F)) :
    List (List (List (Pattern F))) :=
  patterns.filterMap fun
    | .enum e v subPats =>
      if e = enumName ∧ v = variant then some (subPats.map ([·])) else none
    | _ => none

/-- There is a catch-all without a guard, or for each variant with a payload the sub-patterns of the
arms without guards cover the payload. -/
def PayloadsCovered (ctx : Ctx) (dom : Domain) (arms : List (MatchArm F G)) (ty : Ty) : Prop :=
  (∃ p ∈ unguarded arms, p.isCatchall) ∨
  ∀ enumName variant fields, Builds (F := F) ctx dom ty (.variant enumName variant) fields →
    fields ≠ [] →
      (language ctx dom).Covers fields (payloadRows enumName variant (unguarded arms))

omit [BEq F] in
theorem mem_unguarded {p : Pattern F} :
    p ∈ unguarded arms ↔ ∃ arm ∈ arms, arm.guard = none ∧ arm.pattern = p := by
  simp [unguarded, and_assoc]

theorem someArmMatches_iff :
    SomeArmMatches ctx arms v ↔ ∃ p ∈ unguarded arms, p.matches ctx v := by
  constructor
  · rintro ⟨arm, harm, hguard, hm⟩
    exact ⟨_, mem_unguarded.mpr ⟨arm, harm, hguard, rfl⟩, hm⟩
  · rintro ⟨p, hp, hm⟩
    obtain ⟨arm, harm, hguard, rfl⟩ := mem_unguarded.mp hp
    exact ⟨arm, harm, hguard, hm⟩

/-- A match traps on a value, for some outcomes of its guards, just when no arm without a guard
matches it. -/
theorem selectArm_ne_error : (∀ holds, selectArm ctx holds arms v ≠ .error .noMatchingArm) ↔
    SomeArmMatches ctx arms v := by
  constructor
  · intro h
    have hnone := h fun _ _ => false
    unfold selectArm at hnone
    cases hf : arms.find? fun arm => arm.pattern.matches ctx v && arm.guard.all fun _ => false with
    | none =>
      rw [hf] at hnone
      exact absurd rfl hnone
    | some arm =>
      have hp := List.find?_some hf
      rw [Bool.and_eq_true] at hp
      obtain ⟨hm, hguard⟩ := hp
      refine ⟨arm, List.mem_of_find?_eq_some hf, ?_, hm⟩
      cases hg : arm.guard with
      | none => rfl
      | some g =>
        rw [hg] at hguard
        cases hguard
  · rintro ⟨arm, harm, hguard, hm⟩ holds
    unfold selectArm
    cases hf : arms.find? fun arm => arm.pattern.matches ctx v && arm.guard.all (holds · v) with
    | some arm' => exact fun h => by cases h
    | none =>
      have hno := List.find?_eq_none.mp hf arm harm
      rw [hm, hguard] at hno
      exact absurd rfl hno

/-- At a variant, patterns other than a catch-all are the rows of its sub-patterns. -/
theorem matches_variant (dom : Domain) {ps : List (Pattern F)} (hno : ¬ ∃ p ∈ ps, p.isCatchall)
    {enumName variant : String} {cs : List (Datum F)} :
    (∃ p ∈ ps, p.matches ctx (.node (.variant enumName variant) cs)) ↔
      ∃ row ∈ payloadRows enumName variant ps, (language ctx dom).RowMatches row cs := by
  constructor
  · rintro ⟨p, hp, hm⟩
    cases p with
    | wildcard => exact absurd ⟨_, hp, rfl⟩ hno
    | binding _ => exact absurd ⟨_, hp, rfl⟩ hno
    | literal lit => cases lit <;> cases hm
    | struct name fps => cases hm
    | tuple parts => cases hm
    | enum e v subs =>
      change (e == enumName && v == variant && Pattern.matchesAll ctx subs cs) = true at hm
      rw [Bool.and_eq_true, Bool.and_eq_true, beq_iff_eq, beq_iff_eq] at hm
      obtain ⟨⟨rfl, rfl⟩, hm⟩ := hm
      exact ⟨_, List.mem_filterMap.mpr ⟨_, hp, if_pos ⟨rfl, rfl⟩⟩, (matchesAll_iff _ _).mp hm⟩
  · rintro ⟨row, hrow, hm⟩
    obtain ⟨p, hp, heq⟩ := List.mem_filterMap.mp hrow
    split at heq
    · split_ifs at heq with h
      obtain ⟨rfl, rfl⟩ := h
      obtain rfl := Option.some.inj heq
      refine ⟨_, hp, ?_⟩
      change (_ == _ && _ == _ && Pattern.matchesAll ctx _ cs) = true
      rw [beq_self_eq_true, beq_self_eq_true, (matchesAll_iff _ _).mpr hm]
      rfl
    · cases heq

omit [BEq F] in
theorem mem_coveredVariants {enumName variant : String} {ps : List (Pattern F)}
    (h : variant ∈ coveredVariants enumName ps) :
    ∃ subs, Pattern.enum enumName variant subs ∈ ps := by
  obtain ⟨p, hp, heq⟩ := List.mem_filterMap.mp h
  split at heq
  · split_ifs at heq with he
    subst he
    obtain rfl := Option.some.inj heq
    exact ⟨_, hp⟩
  · cases heq

omit [BEq F] in
theorem mem_of_coversBool {b : Bool} {ps : List (Pattern F)} (h : coversBool b ps) :
    Pattern.literal (.bool b) ∈ ps := by
  obtain ⟨p, hp, heq⟩ := List.any_eq_true.mp h
  split at heq
  · obtain rfl := eq_of_beq heq
    exact hp
  · cases heq

omit [BEq F] in
theorem mem_of_coversUnit {ps : List (Pattern F)} (h : coversUnit ps) :
    Pattern.literal .unit ∈ ps := by
  obtain ⟨p, hp, heq⟩ := List.any_eq_true.mp h
  split at heq
  · exact hp
  · cases heq

/-- What an accepted match without a catch-all covers at least. -/
inductive Shallow (ctx : Ctx) (ps : List (Pattern F)) : Ty → Prop
  | bool (h : ∀ b, Pattern.literal (.bool b) ∈ ps) : Shallow ctx ps .bool
  | unit (h : Pattern.literal .unit ∈ ps) : Shallow ctx ps .unit
  | var (v : ℕ) : Shallow ctx ps (.var v)
  | option (t : Ty) (h : ∀ variant, variant = "Some" ∨ variant = "None" →
      ∃ subs, Pattern.enum "Option" variant subs ∈ ps) : Shallow ctx ps (.option t)
  | enum (name : String) (args : List Ty) (h : ∀ variant payload,
      ctx.payload name variant = some payload → ∃ subs, Pattern.enum name variant subs ∈ ps) :
    Shallow ctx ps (.enum name args)

omit [BEq F] in
theorem checkExhaustiveness_shallow (hno : ¬ ∃ p ∈ unguarded arms, p.isCatchall)
    (h : checkExhaustiveness ctx arms ty = .ok ()) : Shallow ctx (unguarded arms) ty := by
  unfold checkExhaustiveness at h
  simp only at h
  rw [if_neg fun h => hno (List.any_eq_true.mp h)] at h
  split at h
  · split_ifs at h with hb
    rw [Bool.and_eq_true] at hb
    refine .bool fun b => ?_
    cases b
    · exact mem_of_coversBool hb.2
    · exact mem_of_coversBool hb.1
  · rename_i name args
    split at h
    · cases h
    · rename_i variants hlookup
      split_ifs at h with hm
      refine .enum name args fun variant payload hp => mem_coveredVariants ?_
      rw [Ctx.payload, hlookup, Option.bind_some] at hp
      by_contra hnot
      obtain ⟨before, behind, rfl, -⟩ := List.lookup_eq_some_iff.mp hp
      have hkey : variant ∈ (before ++ (variant, payload) :: behind).map Prod.fst :=
        List.mem_map_of_mem (List.mem_append_right _ List.mem_cons_self)
      have hmissing := List.isEmpty_iff.mp hm
      exact List.not_mem_nil (hmissing ▸ List.mem_filter.mpr ⟨hkey, decide_eq_true hnot⟩)
  · split_ifs at h with hu
    exact .unit (mem_of_coversUnit hu)
  · split_ifs at h with hm
    refine .option _ fun variant hv => mem_coveredVariants ?_
    by_contra hnot
    have hkey : variant ∈ ["Some", "None"] := by simpa using hv
    have hmissing := List.isEmpty_iff.mp hm
    exact List.not_mem_nil (hmissing ▸ List.mem_filter.mpr ⟨hkey, decide_eq_true hnot⟩)
  · exact .var _
  · cases h

omit [BEq F] in
/-- The pattern of a variant has a sub-pattern for each part of the payload. -/
theorem check_enum_arity {enumName variant : String} {subs : List (Pattern F)}
    {args payload : List Ty}
    {subst subst' : Subst} (hp : ctx.payload enumName variant = some payload)
    (h : checkPatternAgainstType ctx (.enum enumName variant subs) (.enum enumName args) subst =
      .ok subst') : subs.length = payload.length := by
  rw [checkPatternAgainstType] at h
  simp only [Ty.stripLabels] at h
  split_ifs at h with ho
  simp only [hp, ne_eq] at h
  split_ifs at h with hlen
  exact hlen

omit [BEq F] in
theorem check_none_arity {subs : List (Pattern F)} {t : Ty} {subst subst' : Subst}
    (h : checkPatternAgainstType ctx (.enum "Option" "None" subs) (.option t) subst = .ok subst') :
    subs.length = 0 := by
  rw [checkPatternAgainstType] at h
  simp only [Ty.stripLabels, if_true] at h
  split_ifs at h with hlen
  exact not_not.mp hlen

omit [BEq F] in
/-- A variant without a payload is matched by the arms of an accepted match. -/
theorem nullary_row (h : MatchAccepted ctx arms ty) (hno : ¬ ∃ p ∈ unguarded arms, p.isCatchall)
    {enumName variant : String} (hb : Builds (F := F) ctx dom ty (.variant enumName variant) []) :
    [] ∈ payloadRows enumName variant (unguarded arms) := by
  have hrow {subs : List (Pattern F)} (hp : Pattern.enum enumName variant subs ∈ unguarded arms)
      (hlen : subs.length = 0) : [] ∈ payloadRows enumName variant (unguarded arms) := by
    obtain rfl := List.length_eq_zero_iff.mp hlen
    exact List.mem_filterMap.mpr ⟨_, hp, if_pos ⟨rfl, rfl⟩⟩
  have hchecked {p : Pattern F} (hp : p ∈ unguarded arms) :
      ∃ subst subst', checkPatternAgainstType ctx p ty subst = .ok subst' := by
    obtain ⟨arm, harm, -, rfl⟩ := mem_unguarded.mp hp
    exact h.patterns arm harm
  cases checkExhaustiveness_shallow hno h.exhaustive with
  | bool _ => cases hb
  | unit _ => cases hb
  | var _ => cases hb
  | option t hs =>
    cases hb
    obtain ⟨subs, hp⟩ := hs "None" (.inr rfl)
    obtain ⟨subst, subst', hc⟩ := hchecked hp
    exact hrow hp (check_none_arity hc)
  | enum name args hs =>
    generalize hfields : ([] : List Ty) = fields at hb
    cases hb with
    | enum hpayload =>
      obtain ⟨subs, hp⟩ := hs _ _ hpayload
      obtain ⟨subst, subst', hc⟩ := hchecked hp
      refine hrow hp ?_
      rw [check_enum_arity hpayload hc, ← Ty.instantiateAll_length, ← hfields]
      rfl

end Exhaustive

/-! ## Two accepted matches -/

/-- No declared types. -/
def builtins : Ctx := ⟨[], [], [], [], []⟩

/-- A 64-bit runtime without types of its own. -/
def runtime64 : Domain := ⟨64, fun _ _ => False⟩

/-- `match o { Option::Some(1) => .., Option::None => .. }` -/
def onlyOne : List (MatchArm Unit Unit) :=
  [⟨.enum "Option" "Some" [.literal (.int 1)], none⟩, ⟨.enum "Option" "None" [], none⟩]

/-- `Option::Some(2)` -/
def someTwo : Datum Unit := .node (.variant "Option" "Some") [.node (.word 2) []]

/-- `match o { Option::Some(true) => .., Option::Some(false) => .., Option::None => .. }` -/
def bothBools : List (MatchArm Unit Unit) :=
  [⟨.enum "Option" "Some" [.literal (.bool true)], none⟩,
    ⟨.enum "Option" "Some" [.literal (.bool false)], none⟩, ⟨.enum "Option" "None" [], none⟩]

end Keleusma.Matching
