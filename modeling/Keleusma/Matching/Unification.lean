import Keleusma.Logic.Unification
import Keleusma.Matching.Patterns

/-!
# Unification of types

The unifier of the type checker (`unify`). It applies the substitution to both types, looks through
the labels at their heads, binds a variable or goes on with the arguments.
-/

namespace Keleusma.Matching

open Unification (Term)
open Unification.Term (Occurs)

/-! ## The unifier -/

/-- Whether two dimensions may unify. A known and a symbolic one do: they meet within a generic body
only, which is checked again with all dimensions known. -/
def constDimsCompatible : ConstDim → ConstDim → Bool
  | .known x, .known y => x == y
  | .sym x, .sym y => x == y
  | _, _ => true

/-- A dimension in a message. -/
def ConstDim.display : ConstDim → String
  | .known n => toString n
  | .sym s => s

mutual

/-- The type contains the variable. -/
def Ty.occurs (var : ℕ) : Ty → Bool
  | .var v => v == var
  | .tuple items => occursAny var items
  | .array elem _ => elem.occurs var
  | .option inner => inner.occurs var
  | .struct _ args | .enum _ args => occursAny var args
  | .newtype _ => false
  | .labelled inner _ => inner.occurs var
  | _ => false

/-- One of the types contains the variable. -/
def Ty.occursAny (var : ℕ) : List Ty → Bool
  | [] => false
  | t :: ts => t.occurs var || occursAny var ts

end

/-- A type with the variables replaced that the substitution has a type for, again and again. The
first argument bounds the depth. -/
def Ty.apply (subst : Subst) : ℕ → Ty → Option Ty
  | 0, _ => none
  | n + 1, t =>
    match t with
    | .var v =>
      match subst.lookup v with
      | some t => t.apply subst n
      | none => some (.var v)
    | .tuple items => (items.mapM (Ty.apply subst n)).map .tuple
    | .array elem len => (elem.apply subst n).map (.array · len)
    | .option inner => (inner.apply subst n).map .option
    | .struct name args => (args.mapM (Ty.apply subst n)).map (.struct name)
    | .enum name args => (args.mapM (Ty.apply subst n)).map (.enum name)
    | .labelled inner labels => (inner.apply subst n).map (.labelled · labels)
    | other => some other

/-- Why two types do not unify. -/
inductive UnifyError
  | mismatch (left right : Ty)
  | occursCheck (var : ℕ) (ty : Ty)
  | arrayLengthMismatch (left right : String)
  | tupleArityMismatch (left right : ℕ)

/-- What the heads of two types ask for. -/
inductive HeadStep
  | each (ls rs : List Ty)
  | insert (var : ℕ) (ty : Ty)
  | fail (e : UnifyError)

/-- A variable on one side. -/
def unifyVar (v : ℕ) (other : Ty) : HeadStep :=
  let same :=
    match other with
    | .var w => v == w
    | _ => false
  if same then .each [] []
  else if other.occurs v then .fail (.occursCheck v other)
  else .insert v other

/-- What two types without labels at their heads ask for. -/
def unifyHeads : Ty → Ty → HeadStep
  | .fixed m, .fixed n =>
    if m = n then .each [] [] else .fail (.mismatch (.fixed m) (.fixed n))
  | .textN m, .textN n =>
    if constDimsCompatible m n then .each [] [] else .fail (.mismatch (.textN m) (.textN n))
  | .multiword m f, .multiword n g =>
    if constDimsCompatible m n && constDimsCompatible f g then .each [] []
    else .fail (.mismatch (.multiword m f) (.multiword n g))
  | .byte, .byte | .word, .word | .float, .float | .bool, .bool | .unit, .unit | .str, .str =>
    .each [] []
  | .var v, other | other, .var v => unifyVar v other
  | .tuple ls, .tuple rs =>
    if ls.length ≠ rs.length then .fail (.tupleArityMismatch ls.length rs.length) else .each ls rs
  | .array le m, .array re n =>
    if !constDimsCompatible m n then .fail (.arrayLengthMismatch m.display n.display)
    else .each [le] [re]
  | .option li, .option ri => .each [li] [ri]
  | .struct ln ls, .struct rn rs =>
    if ln = rn ∧ ls.length = rs.length then .each ls rs
    else .fail (.mismatch (.struct ln ls) (.struct rn rs))
  | .enum ln ls, .enum rn rs =>
    if ln = rn ∧ ls.length = rs.length then .each ls rs
    else .fail (.mismatch (.enum ln ls) (.enum rn rs))
  | .opaqueType ln, .opaqueType rn =>
    if ln = rn then .each [] [] else .fail (.mismatch (.opaqueType ln) (.opaqueType rn))
  | .newtype ln, .newtype rn =>
    if ln = rn then .each [] [] else .fail (.mismatch (.newtype ln) (.newtype rn))
  | l, r => .fail (.mismatch l r)

/-- Types are unified pairwise, up to the first pair that does not unify. -/
def unifyEach (f : Ty → Ty → Subst → Option (Except UnifyError Unit × Subst)) :
    List Ty → List Ty → Subst → Option (Except UnifyError Unit × Subst)
  | l :: ls, r :: rs, subst =>
    match f l r subst with
    | some (.ok _, subst) => unifyEach f ls rs subst
    | out => out
  | _, _, subst => some (.ok (), subst)

/-- What the heads ask for is done. -/
def HeadStep.run (f : Ty → Ty → Subst → Option (Except UnifyError Unit × Subst)) (subst : Subst) :
    HeadStep → Option (Except UnifyError Unit × Subst)
  | .each ls rs => unifyEach f ls rs subst
  | .insert v t => some (.ok (), (v, t) :: subst)
  | .fail e => some (.error e, subst)

/-- Unify two types under a substitution, which is extended also where the types turn out not to
unify. The first argument bounds the depth. -/
def unify : ℕ → Ty → Ty → Subst → Option (Except UnifyError Unit × Subst)
  | 0, _, _, _ => none
  | n + 1, a, b, subst => do
    let a ← a.apply subst n
    let b ← b.apply subst n
    (unifyHeads a.stripLabels b.stripLabels).run (unify n) subst

/-! ## Types as terms -/

/-- What a type is made of, without its labels. -/
inductive Head
  | byte | word | fixed (fracBits : ℕ) | float | bool | unit | str
  | textN (n : ConstDim)
  | tuple
  | array (n : ConstDim)
  | multiword (n f : ConstDim)
  | option
  | struct (name : String)
  | enum (name : String)
  | newtype (name : String)
  | opaqueType (name : String)

/-- The same heads, up to dimensions that may unify. -/
inductive Head.Compatible : Head → Head → Prop
  | refl (h : Head) : Compatible h h
  | textN {m n : ConstDim} : constDimsCompatible m n → Compatible (.textN m) (.textN n)
  | array {m n : ConstDim} : constDimsCompatible m n → Compatible (.array m) (.array n)
  | multiword {m n f g : ConstDim} : constDimsCompatible m n → constDimsCompatible f g →
      Compatible (.multiword m f) (.multiword n g)

@[simp] theorem constDimsCompatible_self (m : ConstDim) : constDimsCompatible m m = true := by
  cases m <;> exact beq_self_eq_true _

theorem constDimsCompatible_symm {m n : ConstDim} (h : constDimsCompatible m n) :
    constDimsCompatible n m := by
  cases m <;> cases n <;> simp_all [constDimsCompatible]

theorem Head.Compatible.symm (g h : Head) (hgh : Compatible g h) : Compatible h g := by
  cases hgh with
  | refl => exact .refl g
  | textN hn => exact .textN (constDimsCompatible_symm hn)
  | array hn => exact .array (constDimsCompatible_symm hn)
  | multiword hn hf => exact .multiword (constDimsCompatible_symm hn) (constDimsCompatible_symm hf)

/-- The head and the arguments of a type that is no variable and has no labels. -/
def Ty.shape : Ty → Option (Head × List Ty)
  | .byte => some (.byte, [])
  | .word => some (.word, [])
  | .fixed fracBits => some (.fixed fracBits, [])
  | .float => some (.float, [])
  | .bool => some (.bool, [])
  | .unit => some (.unit, [])
  | .str => some (.str, [])
  | .textN n => some (.textN n, [])
  | .tuple items => some (.tuple, items)
  | .array elem n => some (.array n, [elem])
  | .multiword n f => some (.multiword n f, [])
  | .option inner => some (.option, [inner])
  | .struct name args => some (.struct name, args)
  | .enum name args => some (.enum name, args)
  | .newtype name => some (.newtype name, [])
  | .opaqueType name => some (.opaqueType name, [])
  | .labelled _ _ | .var _ => none

mutual

/-- A type without any labels. -/
def Ty.bare : Ty → Term Head
  | .byte => .node .byte []
  | .word => .node .word []
  | .fixed fracBits => .node (.fixed fracBits) []
  | .float => .node .float []
  | .bool => .node .bool []
  | .unit => .node .unit []
  | .str => .node .str []
  | .textN n => .node (.textN n) []
  | .tuple items => .node .tuple (bareAll items)
  | .array elem n => .node (.array n) [elem.bare]
  | .multiword n f => .node (.multiword n f) []
  | .option inner => .node .option [inner.bare]
  | .struct name args => .node (.struct name) (bareAll args)
  | .enum name args => .node (.enum name) (bareAll args)
  | .newtype name => .node (.newtype name) []
  | .opaqueType name => .node (.opaqueType name) []
  | .labelled inner _ => inner.bare
  | .var v => .var v

/-- Types without any labels. -/
def Ty.bareAll : List Ty → List (Term Head)
  | [] => []
  | t :: ts => t.bare :: bareAll ts

end

namespace Ty

variable {t a b : Ty} {g h : Head} {args as bs : List Ty} {v : ℕ} {subst : Subst}

theorem bareAll_eq (ts : List Ty) : bareAll ts = ts.map bare := by
  induction ts with
  | nil => rw [bareAll, List.map_nil]
  | cons t ts ih => rw [bareAll, ih, List.map_cons]

@[simp] theorem bare_var (v : ℕ) : (var v).bare = .var v := by rw [bare]

@[simp] theorem bare_labelled (t : Ty) (labels : List String) :
    (labelled t labels).bare = t.bare := by rw [bare]

theorem bare_of_shape (ht : t.shape = some (h, args)) : t.bare = .node h (args.map bare) := by
  cases t <;> cases ht <;> simp only [bare, bareAll_eq, List.map_nil, List.map_cons]

theorem sizeOf_lt_of_shape {u : Ty} (ht : t.shape = some (h, args)) (hu : u ∈ args) :
    sizeOf u < sizeOf t := by
  have hlt := List.sizeOf_lt_of_mem hu
  cases t with
  | array elem n =>
    cases ht
    obtain rfl := List.mem_singleton.mp hu
    rw [array.sizeOf_spec]
    omega
  | option inner =>
    cases ht
    obtain rfl := List.mem_singleton.mp hu
    rw [option.sizeOf_spec]
    omega
  | tuple | struct | enum => cases ht; simp; omega
  | labelled | var => cases ht
  | _ => cases ht; cases hu

/-- Induction over the labels and the arguments. -/
theorem induct {motive : Ty → Prop} (var : ∀ v, motive (.var v))
    (labelled : ∀ t labels, motive t → motive (.labelled t labels))
    (node : ∀ t h args, t.shape = some (h, args) → (∀ u ∈ args, motive u) → motive t) (t : Ty) :
    motive t := by
  induction hn : sizeOf t using Nat.strongRecOn generalizing t with
  | _ n ih =>
    subst hn
    have hargs {h : Head} {args : List Ty} (ht : t.shape = some (h, args)) : motive t :=
      node t h args ht fun u hu => ih (sizeOf u) (sizeOf_lt_of_shape ht hu) u rfl
    cases t with
    | var v => exact var v
    | labelled t labels => exact labelled t labels (ih (sizeOf t) (by simp; omega) t rfl)
    | _ => exact hargs rfl

theorem bare_stripLabels (t : Ty) : t.stripLabels.bare = t.bare := by
  induction t using induct with
  | var v => rw [stripLabels]; nofun
  | labelled t labels ih => rw [stripLabels, ih, bare_labelled]
  | node t h args ht => cases t <;> cases ht <;> rw [stripLabels] <;> nofun

/-- The type has no labels at its head. -/
def Plain (t : Ty) : Prop := (∃ v, t = .var v) ∨ ∃ h args, t.shape = some (h, args)

theorem plain_stripLabels (t : Ty) : t.stripLabels.Plain := by
  induction t using induct with
  | var v => exact .inl ⟨v, by rw [stripLabels]; nofun⟩
  | labelled t labels ih => rwa [stripLabels]
  | node t h args ht =>
    refine .inr ⟨h, args, ?_⟩
    cases t <;> cases ht <;> rw [stripLabels] <;> first | rfl | nofun

theorem occursAny_eq (v : ℕ) (ts : List Ty) : occursAny v ts = ts.any (occurs v) := by
  induction ts with
  | nil => rw [occursAny, List.any_nil]
  | cons t ts ih => rw [occursAny, ih, List.any_cons]

theorem occurs_of_shape (ht : t.shape = some (h, args)) : t.occurs v = args.any (occurs v) := by
  cases t <;> cases ht <;>
    simp only [occurs, occursAny_eq, List.any_nil, List.any_cons, Bool.or_false]

/-- The occurs check looks through the labels. -/
theorem occurs_iff : t.occurs v = true ↔ Occurs v t.bare := by
  induction t using induct with
  | var w => rw [occurs, bare_var, Unification.Term.occurs_var, beq_iff_eq, eq_comm]
  | labelled t labels ih => rw [occurs, ih, bare_labelled]
  | node t h args ht ih =>
    rw [occurs_of_shape ht, bare_of_shape ht, Unification.Term.occurs_node, List.any_eq_true]
    simp only [List.mem_map, exists_exists_and_eq_and]
    exact exists_congr fun u => and_congr_right fun hu => ih u hu

/-- A substitution is applied to the arguments of a type, and the type is built again. -/
structure Rebuilt (subst : Subst) (t : Ty) (h : Head) (args : List Ty) (build : List Ty → Ty) :
    Prop where
  shape : ∀ ts, ts.length = args.length → (build ts).shape = some (h, ts)
  apply : ∀ n, t.apply subst (n + 1) = (args.mapM (Ty.apply subst n)).map build

theorem rebuilt_leaf (ht : t.shape = some (h, [])) (hn : ∀ n, t.apply subst (n + 1) = some t) :
    Rebuilt subst t h [] fun _ => t where
  shape ts hts := by rw [List.length_eq_zero_iff.mp hts, ht]
  apply := hn

theorem rebuilt_single {f : Ty → Ty} (hf : ∀ u, (f u).shape = some (h, [u]))
    (hn : ∀ n, (f t).apply subst (n + 1) = (t.apply subst n).map f) :
    Rebuilt subst (f t) h [t] fun ts => f (ts.headD .unit) where
  shape ts hts := by
    obtain ⟨u, rfl⟩ := List.length_eq_one_iff.mp hts
    exact hf u
  apply n := by
    rw [hn, List.mapM_cons, List.mapM_nil]
    cases t.apply subst n <;> rfl

theorem apply_of_shape (ht : t.shape = some (h, args)) : ∃ build, Rebuilt subst t h args build := by
  cases t with
  | tuple items => cases ht; exact ⟨.tuple, fun _ _ => rfl, fun _ => rfl⟩
  | struct name args => cases ht; exact ⟨.struct name, fun _ _ => rfl, fun _ => rfl⟩
  | enum name args => cases ht; exact ⟨.enum name, fun _ _ => rfl, fun _ => rfl⟩
  | array elem n =>
    cases ht
    exact ⟨_, rebuilt_single (f := (.array · n)) (fun _ => rfl) fun _ => rfl⟩
  | option inner =>
    cases ht
    exact ⟨_, rebuilt_single (f := .option) (fun _ => rfl) fun _ => rfl⟩
  | labelled | var => cases ht
  | _ => cases ht; exact ⟨_, rebuilt_leaf rfl fun _ => rfl⟩

end Ty

end Keleusma.Matching
