import Mathlib.Data.Finset.Card
import Mathlib.Data.Finset.Lattice.Fold
import Mathlib.Data.List.Zip
import Mathlib.Logic.Function.Basic

/-!
# Unification

First-order terms over heads of any kind. A partial substitution binds variables to terms with
further variables; it is acyclic when what a variable is bound to can be ranked below it, and then
all variables can be resolved at once (`Acyclic.exists_resolver`). Solving equations extends it.
`Outcome` says what has been reached: the equations hold, up to heads that are compatible, wherever
the extension does, and every substitution that respects the old bindings and makes the equations
true respects the new ones; or none makes them true. The rules at the end are those of Robinson's
algorithm, with the bindings applied only when a term is looked at (`Outcome.resolved`).
-/

namespace Unification

/-- A variable, or a head on arguments. -/
inductive Term (H : Type)
  | var (v : ℕ)
  | node (h : H) (args : List (Term H))

namespace Term

variable {H : Type} {θ θ' : ℕ → Term H} {t : Term H} {v : ℕ}

/-- Induction over the arguments. -/
theorem induct {motive : Term H → Prop} (var : ∀ v, motive (.var v))
    (node : ∀ h args, (∀ t ∈ args, motive t) → motive (.node h args)) (t : Term H) : motive t := by
  induction hn : sizeOf t using Nat.strongRecOn generalizing t with
  | _ n ih =>
    subst hn
    cases t with
    | var v => exact var v
    | node h args =>
      refine node h args fun t ht => ih (sizeOf t) ?_ t rfl
      have hlt := List.sizeOf_lt_of_mem ht
      rw [Term.node.sizeOf_spec]
      omega

/-- Replace every variable. -/
def bind (θ : ℕ → Term H) : Term H → Term H
  | .var v => θ v
  | .node h args => .node h (args.map (bind θ))

@[simp] theorem bind_var (v : ℕ) : (Term.var v).bind θ = θ v := by rw [bind]

@[simp] theorem bind_node (h : H) (args : List (Term H)) :
    (node h args).bind θ = node h (args.map (bind θ)) := by rw [bind]

/-- The variable occurs in the term. -/
inductive Occurs (v : ℕ) : Term H → Prop
  | var : Occurs v (.var v)
  | node {h : H} {args : List (Term H)} {t : Term H} :
      t ∈ args → Occurs v t → Occurs v (.node h args)

@[simp] theorem occurs_var {w : ℕ} : Occurs v (.var w : Term H) ↔ v = w :=
  ⟨fun h => by cases h; rfl, fun h => h ▸ .var⟩

@[simp] theorem occurs_node {h : H} {args : List (Term H)} :
    Occurs v (.node h args) ↔ ∃ t ∈ args, Occurs v t :=
  ⟨fun hv => by cases hv with | node ht hv => exact ⟨_, ht, hv⟩, fun ⟨_, ht, hv⟩ => .node ht hv⟩

/-- Only the variables of the term matter. -/
theorem bind_congr (h : ∀ v, Occurs v t → θ v = θ' v) : t.bind θ = t.bind θ' := by
  induction t using induct with
  | var v => rw [bind_var, bind_var, h v .var]
  | node g args ih =>
    rw [bind_node, bind_node]
    refine congrArg (node g) (List.map_congr_left fun t ht => ih t ht fun v hv => h v ?_)
    exact .node ht hv

theorem bind_self (t : Term H) : t.bind .var = t := by
  induction t using induct with
  | var v => exact bind_var v
  | node g args ih => rw [bind_node, List.map_congr_left ih, List.map_id']

theorem bind_bind (t : Term H) : (t.bind θ).bind θ' = t.bind fun v => (θ v).bind θ' := by
  induction t using induct with
  | var v => rw [bind_var, bind_var]
  | node g args ih =>
    rw [bind_node, bind_node, bind_node, List.map_map]
    exact congrArg (node g) (List.map_congr_left ih)

theorem occurs_bind : Occurs v (t.bind θ) ↔ ∃ w, Occurs w t ∧ Occurs v (θ w) := by
  induction t using induct with
  | var w => simp
  | node g args ih =>
    simp only [bind_node, occurs_node, List.mem_map]
    constructor
    · rintro ⟨_, ⟨t, ht, rfl⟩, hv⟩
      obtain ⟨w, hw, hv⟩ := (ih t ht).mp hv
      exact ⟨w, ⟨t, ht, hw⟩, hv⟩
    · rintro ⟨w, ⟨t, ht, hw⟩, hv⟩
      exact ⟨_, ⟨t, ht, rfl⟩, (ih t ht).mpr ⟨w, hw, hv⟩⟩

theorem sizeOf_le_bind (hv : Occurs v t) : sizeOf (θ v) ≤ sizeOf (t.bind θ) := by
  induction hv with
  | var => rw [bind_var]
  | node ht _ ih =>
    have hlt := List.sizeOf_lt_of_mem (List.mem_map_of_mem (f := bind θ) ht)
    rw [bind_node, node.sizeOf_spec]
    omega

/-- **No substitution gives a variable the value of a term that it occurs in.** -/
theorem bind_ne_of_occurs (hv : Occurs v t) (hne : t ≠ .var v) : θ v ≠ t.bind θ := by
  intro heq
  cases hv with
  | var => exact hne rfl
  | node ht hv =>
    have hle := sizeOf_le_bind (θ := θ) hv
    have hlt := List.sizeOf_lt_of_mem (List.mem_map_of_mem (f := bind θ) ht)
    rw [heq, bind_node, node.sizeOf_spec] at hle
    omega

/-- The terms are the same up to heads that stand in a relation. -/
inductive Agree (C : H → H → Prop) : Term H → Term H → Prop
  | var (v : ℕ) : Agree C (.var v) (.var v)
  | node {g h : H} {as bs : List (Term H)} : C g h → as.length = bs.length →
      (∀ p ∈ as.zip bs, Agree C p.1 p.2) → Agree C (.node g as) (.node h bs)

variable {C : H → H → Prop}

theorem Agree.refl (hC : ∀ h, C h h) (t : Term H) : Agree C t t := by
  induction t using induct with
  | var v => exact .var v
  | node h args ih =>
    refine .node (hC h) rfl fun p hp => ?_
    rw [List.zip, List.zipWith_self] at hp
    obtain ⟨a, ha, rfl⟩ := List.mem_map.mp hp
    exact ih a ha

theorem Agree.symm (hC : ∀ g h, C g h → C h g) {a b : Term H} (h : Agree C a b) : Agree C b a := by
  induction h with
  | var v => exact .var v
  | node hgh hlen _ ih =>
    refine .node (hC _ _ hgh) hlen.symm fun p hp => ?_
    rw [← List.zip_swap] at hp
    obtain ⟨q, hq, rfl⟩ := List.mem_map.mp hp
    exact ih q hq

end Term

open Term

variable {H : Type} {C : H → H → Prop} {s s' s'' : ℕ → Option (Term H)} {σ θ : ℕ → Term H}
  {t a b : Term H} {v : ℕ}

/-! ## Partial substitutions -/

/-- The substitution maps every bound variable to what it maps the term of this variable to. -/
def Solves (θ : ℕ → Term H) (s : ℕ → Option (Term H)) : Prop :=
  ∀ v t, s v = some t → θ v = t.bind θ

/-- What a variable is bound to can be ranked below it. -/
def Acyclic (s : ℕ → Option (Term H)) : Prop :=
  ∃ rank : ℕ → ℕ, ∀ v t, s v = some t → ∀ w, Occurs w t → rank w < rank v

/-- All variables resolved at once. -/
structure Resolver (s : ℕ → Option (Term H)) (σ : ℕ → Term H) : Prop where
  acyclic : Acyclic s
  eq : ∀ v, σ v = (s v).elim (.var v) (bind σ)

/-- A variable resolved, as far as the ranks go down. -/
def resolve (rank : ℕ → ℕ) (s : ℕ → Option (Term H)) (v : ℕ) : Term H :=
  (s v).elim (.var v) (bind fun w => if _h : rank w < rank v then resolve rank s w else .var w)
termination_by rank v

/-- **The variables of an acyclic substitution can be resolved.** -/
theorem Acyclic.exists_resolver (h : Acyclic s) : ∃ σ, Resolver s σ := by
  obtain ⟨rank, hrank⟩ := h
  refine ⟨resolve rank s, ⟨rank, hrank⟩, fun v => ?_⟩
  rw [resolve]
  cases hv : s v with
  | none => rfl
  | some t =>
    refine bind_congr fun w hw => ?_
    rw [dif_pos (hrank v t hv w hw)]

/-- **A resolved variable that is bound once more** leaves no cycle, if it does not occur in what it
is bound to and all that occurs there is resolved. -/
theorem Acyclic.update (h : Acyclic s) (hv : s v = none) (hfree : ∀ w, Occurs w t → s w = none)
    (hoccurs : ¬Occurs v t) : Acyclic (Function.update s v (some t)) := by
  obtain ⟨rank, hrank⟩ := h
  -- The free variables at the bottom, the new one above them, and the bound ones above it.
  refine ⟨fun w => if w = v then 1 else if s w = none then 0 else rank w + 2, fun w u hu x hx => ?_⟩
  by_cases hwv : w = v
  · subst hwv
    rw [Function.update_self] at hu
    obtain rfl := Option.some.inj hu
    have hxw : x ≠ w := fun heq => hoccurs (heq ▸ hx)
    simp only [hxw, hfree x hx, if_true, if_false]
    omega
  · rw [Function.update_of_ne hwv] at hu
    have hlt := hrank w u hu x hx
    simp only [hwv, hu, if_false, reduceCtorEq]
    split
    · omega
    · split <;> omega

namespace Resolver

theorem free (h : Resolver s σ) (hv : s v = none) : σ v = .var v := by
  rw [h.eq, hv]
  rfl

theorem bound (h : Resolver s σ) (hv : s v = some t) : σ v = t.bind σ := by
  rw [h.eq, hv]
  rfl

theorem solves (h : Resolver s σ) : Solves σ s := fun _ _ hv => h.bound hv

/-- What holds of the free variables, and of a bound one when it holds of the variables of its term,
holds of all variables. -/
theorem induct (h : Resolver s σ) {motive : ℕ → Prop} (free : ∀ v, s v = none → motive v)
    (bound : ∀ v t, s v = some t → (∀ w, Occurs w t → motive w) → motive v) (v : ℕ) :
    motive v := by
  obtain ⟨rank, hrank⟩ := h.acyclic
  induction hn : rank v using Nat.strongRecOn generalizing v with
  | _ n ih =>
    subst hn
    cases hv : s v with
    | none => exact free v hv
    | some t => exact bound v t hv fun w hw => ih (rank w) (hrank v t hv w hw) w rfl

/-- Where the bindings are respected, a resolved term is mapped to the same as the term. -/
theorem bind_bind (h : Resolver s σ) (hθ : Solves θ s) (t : Term H) :
    (t.bind σ).bind θ = t.bind θ := by
  rw [Term.bind_bind]
  refine bind_congr fun v hv => ?_
  clear hv
  induction v using h.induct with
  | free v hv => rw [h.free hv, bind_var]
  | bound v t hv ih => rw [h.bound hv, hθ v t hv, Term.bind_bind, Term.bind_congr ih]

/-- The variables of a resolved term are free. -/
theorem free_of_occurs (h : Resolver s σ) (hv : Occurs v (t.bind σ)) : s v = none := by
  obtain ⟨w, -, hv⟩ := occurs_bind.mp hv
  induction w using h.induct with
  | free w hw =>
    rw [h.free hw, occurs_var] at hv
    rwa [hv]
  | bound w t hw ih =>
    rw [h.bound hw] at hv
    obtain ⟨x, hx, hv⟩ := occurs_bind.mp hv
    exact ih x hx hv

/-- A resolved term stays what it is. -/
theorem bind_eq_self (h : Resolver s σ) (ht : ∀ w, Occurs w t → s w = none) : t.bind σ = t := by
  refine (bind_congr fun w hw => ?_).trans (bind_self t)
  exact h.free (ht w hw)

end Resolver

/-! ## The variables in play -/

variable {W : Finset ℕ}

/-- All variables of a term are among the given ones. -/
def Inside (W : Finset ℕ) (t : Term H) : Prop := ∀ v, Occurs v t → v ∈ W

/-- All variables of the bindings are among the given ones. -/
def Within (W : Finset ℕ) (s : ℕ → Option (Term H)) : Prop := ∀ v t, s v = some t → Inside W t

/-- How many of the given variables are free. -/
def freeCount (W : Finset ℕ) (s : ℕ → Option (Term H)) : ℕ := (W.filter fun v => (s v).isNone).card

theorem Inside.mono {V : Finset ℕ} (h : Inside V t) (hle : V ⊆ W) : Inside W t :=
  fun v hv => hle (h v hv)

/-- Finitely many variables occur in a list of terms. -/
theorem exists_inside (ts : List (Term H)) : ∃ W : Finset ℕ, ∀ t ∈ ts, Inside W t := by
  have hlist (ts : List (Term H)) (h : ∀ t ∈ ts, ∃ W : Finset ℕ, Inside W t) :
      ∃ W : Finset ℕ, ∀ t ∈ ts, Inside W t := by
    induction ts with
    | nil => exact ⟨∅, fun _ ht => absurd ht List.not_mem_nil⟩
    | cons t ts ih =>
      obtain ⟨V, hV⟩ := h t List.mem_cons_self
      obtain ⟨W, hW⟩ := ih fun u hu => h u (List.mem_cons_of_mem _ hu)
      refine ⟨V ∪ W, fun u hu => ?_⟩
      rcases List.mem_cons.mp hu with rfl | hu
      · exact hV.mono Finset.subset_union_left
      · exact (hW u hu).mono Finset.subset_union_right
  refine hlist ts fun t ht => ?_
  clear ht
  induction t using Term.induct with
  | var v =>
    refine ⟨{v}, fun w hw => ?_⟩
    rw [occurs_var] at hw
    exact Finset.mem_singleton.mpr hw
  | node h args ih =>
    obtain ⟨W, hW⟩ := hlist args ih
    refine ⟨W, fun w hw => ?_⟩
    obtain ⟨u, hu, hw⟩ := occurs_node.mp hw
    exact hW u hu w hw

theorem Resolver.inside (h : Resolver s σ) (hs : Within W s) (ht : Inside W t) :
    Inside W (t.bind σ) := by
  intro v hv
  obtain ⟨w, hw, hv⟩ := occurs_bind.mp hv
  replace hw := ht w hw
  induction w using h.induct with
  | free w hfree =>
    rw [h.free hfree, occurs_var] at hv
    rwa [hv]
  | bound w t hbound ih =>
    rw [h.bound hbound] at hv
    obtain ⟨x, hx, hv⟩ := occurs_bind.mp hv
    exact ih x hx hv (hs w t hbound x hx)

theorem Within.update (h : Within W s) (ht : Inside W t) :
    Within W (Function.update s v (some t)) := by
  intro w u hu
  by_cases hwv : w = v
  · rw [hwv, Function.update_self] at hu
    obtain rfl := Option.some.inj hu
    exact ht
  · rw [Function.update_of_ne hwv] at hu
    exact h w u hu

theorem freeCount_update (hW : v ∈ W) (hv : s v = none) :
    freeCount W (Function.update s v (some t)) < freeCount W s := by
  refine Finset.card_lt_card (Finset.ssubset_iff_subset_ne.mpr ⟨fun w hw => ?_, fun heq => ?_⟩)
  · rw [Finset.mem_filter] at hw ⊢
    refine ⟨hw.1, ?_⟩
    have hwv : w ≠ v := by
      rintro rfl
      rw [Function.update_self] at hw
      cases hw.2
    rw [← Function.update_of_ne hwv (some t) s]
    exact hw.2
  · have hmem : v ∈ W.filter fun w => (s w).isNone := by
      rw [Finset.mem_filter, hv]
      exact ⟨hW, rfl⟩
    rw [← heq, Finset.mem_filter, Function.update_self] at hmem
    cases hmem.2

/-! ## Solving equations -/

/-- Both sides of every equation are mapped to the same. -/
def Unifies (θ : ℕ → Term H) (eqs : List (Term H × Term H)) : Prop :=
  ∀ p ∈ eqs, p.1.bind θ = p.2.bind θ

/-- **What solving equations comes to**, when they could be solved and when not. -/
structure Outcome (C : H → H → Prop) (W : Finset ℕ) (s : ℕ → Option (Term H))
    (eqs : List (Term H × Term H)) (solved : Prop) (s' : ℕ → Option (Term H)) : Prop where
  acyclic : Acyclic s'
  within : Within W s'
  keeps : ∀ v t, s v = some t → s' v = some t
  grown : s' = s ∨ freeCount W s' < freeCount W s
  sound : solved → ∀ θ, Solves θ s' → ∀ p ∈ eqs, Agree C (p.1.bind θ) (p.2.bind θ)
  general : solved → ∀ θ, Solves θ s → Unifies θ eqs → Solves θ s'
  fails : ¬solved → ∀ θ, Solves θ s → ¬Unifies θ eqs

namespace Outcome

variable {eqs : List (Term H × Term H)} {solved : Prop}

/-- Nothing is left to solve. -/
theorem nil (hs : Acyclic s) (hW : Within W s) (hsolved : solved) : Outcome C W s [] solved s where
  acyclic := hs
  within := hW
  keeps _ _ hv := hv
  grown := .inl rfl
  sound _ _ _ _ hp := absurd hp List.not_mem_nil
  general _ _ hθ _ := hθ
  fails hno := absurd hsolved hno

/-- No substitution maps both sides to the same. -/
theorem clash (hs : Acyclic s) (hW : Within W s) (hne : ∀ θ, a.bind θ ≠ b.bind θ)
    (hno : ¬solved) : Outcome C W s [(a, b)] solved s where
  acyclic := hs
  within := hW
  keeps _ _ hv := hv
  grown := .inl rfl
  sound hsolved := absurd hsolved hno
  general hsolved := absurd hsolved hno
  fails _ θ _ hall := hne θ (hall (a, b) List.mem_cons_self)

/-- Both sides are one variable. -/
theorem same (hs : Acyclic s) (hW : Within W s) (hC : ∀ h, C h h) (hsolved : solved) :
    Outcome C W s [(a, a)] solved s where
  acyclic := hs
  within := hW
  keeps _ _ hv := hv
  grown := .inl rfl
  sound _ θ _ p hp := by
    rw [List.mem_singleton.mp hp]
    exact Agree.refl hC _
  general _ _ hθ _ := hθ
  fails hno := absurd hsolved hno

/-- A variable is bound to the other side. -/
theorem bind (hs : Acyclic s) (hW : Within W s) (hC : ∀ h, C h h) (hv : s v = none) (hvW : v ∈ W)
    (hfree : ∀ w, Occurs w t → s w = none) (ht : Inside W t) (hoccurs : ¬Occurs v t)
    (hsolved : solved) :
    Outcome C W s [(.var v, t)] solved (Function.update s v (some t)) where
  acyclic := hs.update hv hfree hoccurs
  within := hW.update ht
  keeps w u hw := by
    rwa [Function.update_of_ne fun heq => by rw [heq, hv] at hw; cases hw]
  grown := .inr (freeCount_update hvW hv)
  sound _ θ hθ p hp := by
    rw [List.mem_singleton.mp hp, bind_var, hθ v t (Function.update_self v _ s)]
    exact Agree.refl hC _
  general _ θ hθ hall := by
    intro w u hw
    by_cases hwv : w = v
    · subst hwv
      rw [Function.update_self] at hw
      obtain rfl := Option.some.inj hw
      exact (bind_var w).symm.trans (hall _ List.mem_cons_self)
    · rw [Function.update_of_ne hwv] at hw
      exact hθ w u hw
  fails hno := absurd hsolved hno

/-- The variable occurs in the other side. -/
theorem occurs (hs : Acyclic s) (hW : Within W s) (hoccurs : Occurs v t) (hne : t ≠ .var v)
    (hno : ¬solved) : Outcome C W s [(.var v, t)] solved s := by
  refine clash hs hW (fun θ => ?_) hno
  rw [bind_var]
  exact bind_ne_of_occurs hoccurs hne

/-- The sides of an equation change places. -/
theorem symm (hC : ∀ g h, C g h → C h g) (h : Outcome C W s [(a, b)] solved s') :
    Outcome C W s [(b, a)] solved s' where
  acyclic := h.acyclic
  within := h.within
  keeps := h.keeps
  grown := h.grown
  sound hsolved θ hθ p hp := by
    rw [List.mem_singleton.mp hp]
    exact (h.sound hsolved θ hθ (a, b) List.mem_cons_self).symm hC
  general hsolved θ hθ hall := by
    refine h.general hsolved θ hθ fun p hp => ?_
    rw [List.mem_singleton.mp hp]
    exact (hall (b, a) List.mem_cons_self).symm
  fails hno θ hθ hall := by
    refine h.fails hno θ hθ fun p hp => ?_
    rw [List.mem_singleton.mp hp]
    exact (hall (b, a) List.mem_cons_self).symm

/-- Two nodes with compatible heads leave the equations of their arguments. -/
theorem node {g h : H} {as bs : List (Term H)} (hC : C g h) (hlen : as.length = bs.length)
    (hargs : Outcome C W s (as.zip bs) solved s') :
    Outcome C W s [(.node g as, .node h bs)] solved s' := by
  have hparts {θ : ℕ → Term H} (hall : Unifies θ [(Term.node g as, Term.node h bs)]) :
      Unifies θ (as.zip bs) := by
    have heq := hall _ List.mem_cons_self
    simp only [bind_node, Term.node.injEq] at heq
    intro p hp
    have hmem := List.mem_map_of_mem (f := Prod.map (Term.bind θ) (Term.bind θ)) hp
    rw [← List.zip_map, heq.2, List.zip, List.zipWith_self] at hmem
    obtain ⟨t, -, ht⟩ := List.mem_map.mp hmem
    rw [Prod.ext_iff] at ht
    exact ht.1.symm.trans ht.2
  refine ⟨hargs.acyclic, hargs.within, hargs.keeps, hargs.grown, fun hsolved θ hθ p hp => ?_,
    fun hsolved θ hθ hall => hargs.general hsolved θ hθ (hparts hall),
    fun hno θ hθ hall => hargs.fails hno θ hθ (hparts hall)⟩
  rw [List.mem_singleton.mp hp, bind_node, bind_node]
  refine .node hC (by rw [List.length_map, List.length_map, hlen]) fun q hq => ?_
  rw [List.zip_map] at hq
  obtain ⟨r, hr, rfl⟩ := List.mem_map.mp hq
  exact hargs.sound hsolved θ hθ r hr

/-- **The bindings are applied** before an equation is looked at. -/
theorem resolved (hσ : Resolver s σ) (h : Outcome C W s [(a.bind σ, b.bind σ)] solved s') :
    Outcome C W s [(a, b)] solved s' := by
  have happlied {θ : ℕ → Term H} (hθ : Solves θ s) :
      Unifies θ [(a.bind σ, b.bind σ)] ↔ Unifies θ [(a, b)] := by
    simp only [Unifies, List.mem_singleton, forall_eq, hσ.bind_bind hθ]
  refine ⟨h.acyclic, h.within, h.keeps, h.grown, fun hsolved θ hθ p hp => ?_,
    fun hsolved θ hθ hall => h.general hsolved θ hθ ((happlied hθ).mpr hall),
    fun hno θ hθ hall => h.fails hno θ hθ ((happlied hθ).mpr hall)⟩
  have hold : Solves θ s := fun v t hv => hθ v t (h.keeps v t hv)
  have hagree := h.sound hsolved θ hθ _ List.mem_cons_self
  rw [hσ.bind_bind hold, hσ.bind_bind hold] at hagree
  rw [List.mem_singleton.mp hp]
  exact hagree

/-- The equations are solved one after the other. -/
theorem cons {p : Term H × Term H} {solved₁ : Prop} (hp : Outcome C W s [p] solved₁ s')
    (h₁ : solved₁) (h : Outcome C W s' eqs solved s'') : Outcome C W s (p :: eqs) solved s'' where
  acyclic := h.acyclic
  within := h.within
  keeps v t hv := h.keeps v t (hp.keeps v t hv)
  grown := by
    rcases hp.grown with rfl | hlt
    · exact h.grown
    · rcases h.grown with rfl | hlt'
      · exact .inr hlt
      · exact .inr (hlt'.trans hlt)
  sound hsolved θ hθ q hq := by
    rcases List.mem_cons.mp hq with rfl | hq
    · exact hp.sound h₁ θ (fun v t hv => hθ v t (h.keeps v t hv)) q List.mem_cons_self
    · exact h.sound hsolved θ hθ q hq
  general hsolved θ hθ hall := by
    have hfirst := hp.general h₁ θ hθ fun q hq => hall q (List.mem_singleton.mp hq ▸ .head _)
    exact h.general hsolved θ hfirst fun q hq => hall q (.tail _ hq)
  fails hno θ hθ hall := by
    have hfirst := hp.general h₁ θ hθ fun q hq => hall q (List.mem_singleton.mp hq ▸ .head _)
    exact h.fails hno θ hfirst fun q hq => hall q (.tail _ hq)

/-- An equation without a solution leaves none to those behind it. -/
theorem stop {p : Term H × Term H} (hp : Outcome C W s [p] solved s') (hno : ¬solved) :
    Outcome C W s (p :: eqs) solved s' where
  acyclic := hp.acyclic
  within := hp.within
  keeps := hp.keeps
  grown := hp.grown
  sound hsolved := absurd hsolved hno
  general hsolved := absurd hsolved hno
  fails _ θ hθ hall :=
    hp.fails hno θ hθ fun q hq => hall q (List.mem_singleton.mp hq ▸ .head _)

end Outcome

end Unification
