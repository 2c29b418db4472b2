import Keleusma.Matching.Unification

/-!
# The most general unifier

Applying an acyclic substitution comes to an end (`applies_resolved`), and so does `unify`: a call
binds one of the finitely many variables in play or goes on with smaller types. What it comes to is
an `Unification.Outcome` (`unify_settles`).
-/

namespace Keleusma.Matching

open Unification (Term Solves Within Inside Resolver freeCount Outcome)
open Unification.Term (Agree Occurs)

/-! ## Applying a substitution -/

/-- What the variables are bound to, without labels. -/
def Subst.bare (subst : Subst) (v : ℕ) : Option (Term Head) := (subst.lookup v).map Ty.bare

/-- The substitution can be applied to every type. -/
def Subst.Acyclic (subst : Subst) : Prop := ∀ t : Ty, ∃ n t', t.apply subst n = some t'

/-- With enough depth the substitution takes the one type to the other. -/
def Applies (subst : Subst) (t t' : Ty) : Prop := ∃ N, ∀ n, N ≤ n → t.apply subst n = some t'

variable {s : Subst} {t t' a b u : Ty} {n v : ℕ} {σ : ℕ → Term Head}

theorem Applies.unique (h : Applies s t t') (hu : Applies s t u) : t' = u := by
  obtain ⟨N, h⟩ := h
  obtain ⟨M, hu⟩ := hu
  exact Option.some.inj ((h (max N M) (le_max_left N M)).symm.trans (hu _ (le_max_right N M)))

theorem Subst.bare_eq_some {t : Term Head} :
    s.bare v = some t ↔ ∃ u, s.lookup v = some u ∧ u.bare = t := Option.map_eq_some_iff

theorem Subst.bare_eq_none : s.bare v = none ↔ s.lookup v = none := Option.map_eq_none_iff

theorem Subst.bare_cons : Subst.bare ((v, t) :: s) = Function.update s.bare v (some t.bare) := by
  funext w
  by_cases hwv : w = v
  · rw [hwv, Function.update_self, Subst.bare, List.lookup_cons_self]
    rfl
  · rw [Function.update_of_ne hwv, Subst.bare, List.lookup_cons, beq_eq_false_iff_ne.mpr hwv]
    rfl

theorem exists_of_mapM {f : Ty → Option Ty} {ts ts' : List Ty} (h : ts.mapM f = some ts')
    (hu : u ∈ ts) : ∃ u', f u = some u' := by
  induction ts generalizing ts' with
  | nil => cases hu
  | cons t ts ih =>
    rw [List.mapM_cons] at h
    obtain ⟨t', ht, h⟩ := Option.bind_eq_some_iff.mp h
    obtain ⟨ts', hts, -⟩ := Option.bind_eq_some_iff.mp h
    rcases List.mem_cons.mp hu with rfl | hu
    · exact ⟨t', ht⟩
    · exact ih hts hu

/-- Where a substitution can be applied to a type, it can be to the variables, and no deeper. -/
theorem exists_apply_var (h : t.apply s n = some t') (hv : Occurs v t.bare) :
    ∃ m ≤ n, ∃ u, (Ty.var v).apply s m = some u := by
  induction t using Ty.induct generalizing n t' with
  | var w =>
    rw [Ty.bare_var, Unification.Term.occurs_var] at hv
    exact ⟨n, le_rfl, t', hv ▸ h⟩
  | labelled t labels ih =>
    rw [Ty.bare_labelled] at hv
    cases n with
    | zero => cases h
    | succ n =>
      obtain ⟨t'', ht, -⟩ := Option.map_eq_some_iff.mp h
      obtain ⟨m, hm, hvar⟩ := ih ht hv
      exact ⟨m, hm.trans n.le_succ, hvar⟩
  | node t g args ht ih =>
    rw [Ty.bare_of_shape ht, Unification.Term.occurs_node] at hv
    obtain ⟨_, hmem, hv⟩ := hv
    obtain ⟨u, hu, rfl⟩ := List.mem_map.mp hmem
    cases n with
    | zero => cases h
    | succ n =>
      obtain ⟨build, hbuild⟩ := Ty.apply_of_shape ht
      rw [hbuild.apply n] at h
      obtain ⟨args', hargs, -⟩ := Option.map_eq_some_iff.mp h
      obtain ⟨u', hu'⟩ := exists_of_mapM hargs hu
      obtain ⟨m, hm, hvar⟩ := ih u hu hu' hv
      exact ⟨m, hm.trans n.le_succ, hvar⟩

/-- The depth that a variable needs ranks it above the variables that it is bound to. -/
theorem Subst.Acyclic.bare (h : s.Acyclic) : Unification.Acyclic s.bare := by
  classical
  refine ⟨fun v => Nat.find (h (.var v)), fun v t hv w hw => ?_⟩
  obtain ⟨u, hu, rfl⟩ := Subst.bare_eq_some.mp hv
  obtain ⟨t', ht'⟩ := Nat.find_spec (h (.var v))
  cases hn : Nat.find (h (.var v)) with
  | zero =>
    rw [hn] at ht'
    cases ht'
  | succ n =>
    rw [hn, Ty.apply, hu] at ht'
    obtain ⟨m, hm, hvar⟩ := exists_apply_var ht' hw
    have hle := Nat.find_min' (h (.var w)) hvar
    show Nat.find (h (.var w)) < Nat.find (h (.var v))
    omega

theorem applies_args {ts : List Ty}
    (h : ∀ u ∈ ts, ∃ u', Applies s u u' ∧ u'.bare = u.bare.bind σ) :
    ∃ ts', (∃ N, ∀ n, N ≤ n → ts.mapM (Ty.apply s n) = some ts') ∧ ts'.length = ts.length ∧
      ts'.map Ty.bare = (ts.map Ty.bare).map (Term.bind σ) := by
  induction ts with
  | nil => exact ⟨[], ⟨0, fun _ _ => rfl⟩, rfl, rfl⟩
  | cons u ts ih =>
    obtain ⟨u', ⟨N, hu⟩, hbare⟩ := h u List.mem_cons_self
    obtain ⟨ts', ⟨M, hts⟩, hlen, hbares⟩ := ih fun w hw => h w (List.mem_cons_of_mem _ hw)
    refine ⟨u' :: ts', ⟨max N M, fun n hn => ?_⟩, congrArg (· + 1) hlen, ?_⟩
    · rw [List.mapM_cons, hu n (le_of_max_le_left hn), hts n (le_of_max_le_right hn)]
      rfl
    · rw [List.map_cons, hbare, hbares, List.map_cons, List.map_cons]

/-- The arguments of a node are taken to others, and the node with them. -/
theorem applies_of_args {h : Head} {as as' : List Ty} (ht : t.shape = some (h, as))
    (has : ∃ N, ∀ n, N ≤ n → as.mapM (Ty.apply s n) = some as') (hlen : as'.length = as.length) :
    ∃ t', Applies s t t' ∧ t'.shape = some (h, as') := by
  obtain ⟨N, has⟩ := has
  obtain ⟨build, hbuild⟩ : ∃ build, Ty.Rebuilt s t h as build := Ty.apply_of_shape ht
  refine ⟨build as', ⟨N + 1, fun n hn => ?_⟩, hbuild.shape as' hlen⟩
  obtain ⟨n, rfl⟩ := Nat.exists_eq_add_of_le' hn
  rw [← Nat.add_assoc, hbuild.apply, has _ (Nat.le_add_left N n)]
  rfl

/-- Labels stay around what is below them. -/
theorem applies_labelled (h : Applies s t t') (labels : List String) :
    Applies s (.labelled t labels) (.labelled t' labels) := by
  obtain ⟨N, ht⟩ := h
  refine ⟨N + 1, fun n hn => ?_⟩
  obtain ⟨n, rfl⟩ := Nat.exists_eq_add_of_le' hn
  rw [← Nat.add_assoc, Ty.apply, ht _ (Nat.le_add_left N n)]
  rfl

theorem applies_free (hv : s.lookup v = none) : Applies s (.var v) (.var v) := by
  refine ⟨1, fun n hn => ?_⟩
  obtain ⟨n, rfl⟩ := Nat.exists_eq_add_of_le' hn
  rw [Ty.apply, hv]

theorem applies_bound (hv : s.lookup v = some t) (h : Applies s t t') : Applies s (.var v) t' := by
  obtain ⟨N, ht⟩ := h
  refine ⟨N + 1, fun n hn => ?_⟩
  obtain ⟨n, rfl⟩ := Nat.exists_eq_add_of_le' hn
  rw [← Nat.add_assoc, Ty.apply, hv]
  exact ht _ (Nat.le_add_left N n)

theorem applies_of_vars
    (h : ∀ w, Occurs w t.bare → ∃ t', Applies s (.var w) t' ∧ t'.bare = σ w) :
    ∃ t', Applies s t t' ∧ t'.bare = t.bare.bind σ := by
  induction t using Ty.induct with
  | var v =>
    rw [Ty.bare_var] at h ⊢
    rw [Unification.Term.bind_var]
    exact h v .var
  | labelled t labels ih =>
    obtain ⟨t', ht, hbare⟩ := ih fun w hw => h w (by rwa [Ty.bare_labelled])
    exact ⟨.labelled t' labels, applies_labelled ht labels, by simpa using hbare⟩
  | node t g args ht ih =>
    rw [Ty.bare_of_shape ht] at h ⊢
    obtain ⟨args', hargs, hlen, hbare⟩ := applies_args fun u hu => ih u hu fun w hw =>
      h w (.node (List.mem_map_of_mem hu) hw)
    obtain ⟨t', ht', hshape⟩ := applies_of_args ht hargs hlen
    refine ⟨t', ht', ?_⟩
    rw [Ty.bare_of_shape hshape, hbare, Unification.Term.bind_node]

/-- **Applying an acyclic substitution** resolves all variables. -/
theorem applies_resolved (hσ : Resolver s.bare σ) (t : Ty) :
    ∃ t', Applies s t t' ∧ t'.bare = t.bare.bind σ := by
  refine applies_of_vars fun w hw => ?_
  clear hw
  induction w using hσ.induct with
  | free v hv =>
    exact ⟨.var v, applies_free (Subst.bare_eq_none.mp hv), by rw [hσ.free hv, Ty.bare_var]⟩
  | bound v t hv ih =>
    obtain ⟨u, hu, rfl⟩ := Subst.bare_eq_some.mp hv
    obtain ⟨t', ht, hbare⟩ := applies_of_vars ih
    exact ⟨t', applies_bound hu ht, by rw [hbare, hσ.bound hv]⟩

theorem Applies.bare_eq (h : Applies s t t') (hσ : Resolver s.bare σ) :
    t'.bare = t.bare.bind σ := by
  obtain ⟨u, hu, hbare⟩ := applies_resolved hσ t
  rw [h.unique hu, hbare]

theorem Subst.acyclic_iff : s.Acyclic ↔ Unification.Acyclic s.bare := by
  refine ⟨Subst.Acyclic.bare, fun h t => ?_⟩
  obtain ⟨σ, hσ⟩ := h.exists_resolver
  obtain ⟨t', ⟨N, ht⟩, -⟩ := applies_resolved hσ t
  exact ⟨N, t', ht N le_rfl⟩

/-! ## The heads of two types -/

variable {g h : Head} {as bs : List Ty}

theorem unifyVar_cases (v : ℕ) (t : Ty) : (t = .var v ∧ unifyVar v t = .each [] []) ∨
    t ≠ .var v ∧ (t.occurs v = true ∧ unifyVar v t = .fail (.occursCheck v t) ∨
      t.occurs v = false ∧ unifyVar v t = .insert v t) := by
  by_cases ht : t = .var v
  · exact .inl ⟨ht, by rw [ht, unifyVar]; simp⟩
  · refine .inr ⟨ht, ?_⟩
    have hvar : unifyVar v t = if t.occurs v then .fail (.occursCheck v t) else .insert v t := by
      cases t with
      | var w =>
        have hne : (v == w) = false := beq_eq_false_iff_ne.mpr fun heq => ht (heq ▸ rfl)
        simp only [unifyVar, hne, Bool.false_eq_true, if_false]
      | _ => rfl
    rw [hvar]
    cases t.occurs v
    · exact .inr ⟨rfl, rfl⟩
    · exact .inl ⟨rfl, rfl⟩

theorem unifyHeads_var_left (v : ℕ) (b : Ty) : unifyHeads (.var v) b = unifyVar v b := by
  cases b <;> rfl

theorem unifyHeads_var_right (ha : a.shape = some (g, as)) (v : ℕ) :
    unifyHeads a (.var v) = unifyVar v a := by
  cases a <;> cases ha <;> rfl

/-- A condition on the heads and the arguments. -/
theorem unifyHeads_of_ite {p : Prop} [Decidable p] {e : UnifyError}
    (hstep : unifyHeads a b = if p then .each as bs else .fail e)
    (hyes : p → g.Compatible h ∧ as.length = bs.length)
    (hno : g = h → as.length = bs.length → p) :
    (unifyHeads a b = .each as bs ∧ g.Compatible h ∧ as.length = bs.length) ∨
      (∃ e, unifyHeads a b = .fail e) ∧ (g = h → as.length ≠ bs.length) := by
  by_cases hp : p
  · exact .inl ⟨hstep.trans (if_pos hp), hyes hp⟩
  · exact .inr ⟨⟨e, hstep.trans (if_neg hp)⟩, fun heq hlen => hp (hno heq hlen)⟩

/-- Two nodes: their arguments are left, or nothing makes the nodes the same. -/
theorem unifyHeads_node (ha : a.shape = some (g, as)) (hb : b.shape = some (h, bs)) :
    (unifyHeads a b = .each as bs ∧ g.Compatible h ∧ as.length = bs.length) ∨
      (∃ e, unifyHeads a b = .fail e) ∧ (g = h → as.length ≠ bs.length) := by
  -- Most pairs have different heads, and most of the others no condition.
  cases a <;> cases ha <;> cases b <;> cases hb <;>
    first
    | exact .inr ⟨⟨_, rfl⟩, fun heq => by cases heq⟩
    | exact .inl ⟨rfl, .refl _, rfl⟩
    | skip
  case fixed m n =>
    exact unifyHeads_of_ite rfl (fun hp => ⟨hp ▸ .refl _, rfl⟩) fun heq _ => by cases heq; rfl
  case textN m n =>
    exact unifyHeads_of_ite rfl (fun hp => ⟨.textN hp, rfl⟩) fun heq _ => by cases heq; simp
  case tuple =>
    exact unifyHeads_of_ite (ite_not _ _ _) (fun hp => ⟨.refl _, hp⟩) fun _ hlen => hlen
  case array le m re n =>
    have hstep : unifyHeads (.array le m) (.array re n) = if constDimsCompatible m n then
        .each [le] [re] else .fail (.arrayLengthMismatch m.display n.display) := by
      rw [unifyHeads]
      cases constDimsCompatible m n <;> rfl
    exact unifyHeads_of_ite hstep (fun hp => ⟨.array hp, rfl⟩) fun heq _ => by cases heq; simp
  case multiword m f n g =>
    refine unifyHeads_of_ite rfl (fun hp => ?_) fun heq _ => by cases heq; simp
    rw [Bool.and_eq_true] at hp
    exact ⟨.multiword hp.1 hp.2, rfl⟩
  case struct | enum =>
    exact unifyHeads_of_ite rfl (fun hp => ⟨hp.1 ▸ .refl _, hp.2⟩) fun heq hlen =>
      ⟨by cases heq; rfl, hlen⟩
  case newtype | opaqueType =>
    exact unifyHeads_of_ite rfl (fun hp => ⟨hp ▸ .refl _, rfl⟩) fun heq _ => by cases heq; rfl

/-! ## Unifying -/

variable {W : Finset ℕ} {r : Except UnifyError Unit} {s₁ s' : Subst}

/-- With enough depth a call returns, the substitution is extended and the equations have been
solved as well as they can be. -/
def Settles (W : Finset ℕ) (s : Subst) (eqs : List (Term Head × Term Head))
    (f : ℕ → Option (Except UnifyError Unit × Subst)) : Prop :=
  ∃ r s', (∃ N, ∀ n, N ≤ n → f n = some (r, s')) ∧
    (∀ v t, s.lookup v = some t → s'.lookup v = some t) ∧
    Outcome Head.Compatible W s.bare eqs (r = .ok ()) s'.bare

/-- The substitution is the given one, or has bound a variable since. -/
def Since (W : Finset ℕ) (s s₁ : Subst) : Prop :=
  s₁.bare = s.bare ∨ freeCount W s₁.bare < freeCount W s.bare

theorem Settles.refl {eqs : List (Term Head × Term Head)} {r : Except UnifyError Unit}
    (h : Outcome Head.Compatible W s.bare eqs (r = .ok ()) s.bare) :
    Settles W s eqs fun _ => some (r, s) :=
  ⟨r, s, ⟨0, fun _ _ => rfl⟩, fun _ _ ht => ht, h⟩

/-- **Pairs of types** are unified one after the other. -/
theorem unifyEach_settles {ls rs : List Ty} (hlen : ls.length = rs.length)
    (hstep : ∀ s₁, Unification.Acyclic s₁.bare → Within W s₁.bare → Since W s s₁ →
      ∀ l ∈ ls, ∀ r ∈ rs, Settles W s₁ [(l.bare, r.bare)] fun n => unify n l r s₁)
    (hs : Unification.Acyclic s₁.bare) (hW : Within W s₁.bare) (hsince : Since W s s₁) :
    Settles W s₁ ((ls.map Ty.bare).zip (rs.map Ty.bare)) fun n =>
      unifyEach (unify n) ls rs s₁ := by
  induction ls generalizing rs s₁ with
  | nil =>
    exact .refl (r := .ok ()) (.nil hs hW rfl)
  | cons l ls ih =>
    obtain _ | ⟨r, rs⟩ := rs
    · cases hlen
    obtain ⟨e, s₂, ⟨N, hl⟩, hkeeps, hout⟩ := hstep s₁ hs hW hsince l (.head _) r (.head _)
    cases e with
    | error e =>
      have hcall (n : ℕ) (hn : N ≤ n) : unify n l r s₁ = some (.error e, s₂) := hl n hn
      refine ⟨.error e, s₂, ⟨N, fun n hn => ?_⟩, hkeeps, hout.stop nofun⟩
      show unifyEach (unify n) (l :: ls) (r :: rs) s₁ = _
      rw [unifyEach, hcall n hn]
    | ok =>
      have hcall (n : ℕ) (hn : N ≤ n) : unify n l r s₁ = some (.ok (), s₂) := hl n hn
      have hsince₂ : Since W s s₂ := by
        rcases hout.grown with heq | hlt
        · rw [Since, heq]
          exact hsince
        · rcases hsince with heq | hlt'
          · exact .inr (heq ▸ hlt)
          · exact .inr (hlt.trans hlt')
      obtain ⟨e, s₃, ⟨M, hls⟩, hkeeps', hout'⟩ := ih (Nat.succ.inj hlen)
        (fun s₁ hs hW hsince l hl r hr => hstep s₁ hs hW hsince l (.tail _ hl) r (.tail _ hr))
        hout.acyclic hout.within hsince₂
      refine ⟨e, s₃, ⟨max N M, fun n hn => ?_⟩, fun v t ht => hkeeps' v t (hkeeps v t ht),
        hout.cons rfl hout'⟩
      show unifyEach (unify n) (l :: ls) (r :: rs) s₁ = _
      rw [unifyEach, hcall n (le_of_max_le_left hn)]
      exact hls n (le_of_max_le_right hn)

/-- A type as it is after the substitution has been applied. -/
def Resolved (W : Finset ℕ) (s : Subst) (t : Ty) : Prop :=
  ∀ v, Occurs v t.bare → s.bare v = none ∧ v ∈ W

theorem occurs_of_arg (ht : t.shape = some (g, as)) (hu : u ∈ as) (hv : Occurs v u.bare) :
    Occurs v t.bare := by
  rw [Ty.bare_of_shape ht]
  exact .node (List.mem_map_of_mem hu) hv

theorem sizeOf_bare_lt (ht : t.shape = some (g, as)) (hu : u ∈ as) :
    sizeOf u.bare < sizeOf t.bare := by
  have hlt := List.sizeOf_lt_of_mem (List.mem_map_of_mem (f := Ty.bare) hu)
  rw [Ty.bare_of_shape ht, Term.node.sizeOf_spec]
  omega

/-- A variable meets a type. -/
theorem unifyVar_settles (hs : Unification.Acyclic s.bare) (hW : Within W s.bare)
    (hv : s.bare v = none) (hvW : v ∈ W) (hplain : t.Plain) (ht : Resolved W s t) :
    Settles W s [(.var v, t.bare)] fun n => (unifyVar v t).run (unify n) s := by
  rcases unifyVar_cases v t with ⟨rfl, hstep⟩ | ⟨hne, ⟨hoccurs, hstep⟩ | ⟨hoccurs, hstep⟩⟩
  · rw [hstep, Ty.bare_var]
    exact .refl (r := .ok ()) (.same hs hW .refl rfl)
  · rw [hstep]
    have hbare : t.bare ≠ .var v := by
      rcases hplain with ⟨w, rfl⟩ | ⟨h, args, hshape⟩
      · rw [Ty.bare_var]
        exact fun heq => hne (congrArg Ty.var (Term.var.inj heq))
      · rw [Ty.bare_of_shape hshape]
        nofun
    exact .refl (r := .error _) (.occurs hs hW (Ty.occurs_iff.mp hoccurs) hbare nofun)
  · rw [hstep]
    refine ⟨.ok (), (v, t) :: s, ⟨0, fun _ _ => rfl⟩, fun w u hu => ?_, ?_⟩
    · have hwv : w ≠ v := fun heq => by rw [heq, Subst.bare_eq_none.mp hv] at hu; cases hu
      rwa [List.lookup_cons, beq_eq_false_iff_ne.mpr hwv]
    · rw [Subst.bare_cons]
      refine .bind hs hW .refl hv hvW (fun w hw => (ht w hw).1) (fun w hw => (ht w hw).2) ?_ rfl
      rw [← Ty.occurs_iff, hoccurs]
      exact Bool.false_ne_true

/-- An equation whose sides have changed places. -/
theorem Settles.symm {a b : Term Head} {f : ℕ → Option (Except UnifyError Unit × Subst)}
    (h : Settles W s [(a, b)] f) : Settles W s [(b, a)] f := by
  obtain ⟨r, s', hcall, hkeeps, hout⟩ := h
  exact ⟨r, s', hcall, hkeeps, hout.symm Head.Compatible.symm⟩

/-- **Two types without labels at their heads**, where pairs of arguments settle. -/
theorem unifyHeads_settles (hs : Unification.Acyclic s.bare) (hW : Within W s.bare)
    (hplain : a.Plain) (hplain' : b.Plain) (ha : Resolved W s a) (hb : Resolved W s b)
    (hargs : ∀ g h as bs, a.shape = some (g, as) → b.shape = some (h, bs) → as.length = bs.length →
      Settles W s ((as.map Ty.bare).zip (bs.map Ty.bare)) fun n => unifyEach (unify n) as bs s) :
    Settles W s [(a.bare, b.bare)] fun n => (unifyHeads a b).run (unify n) s := by
  have hvar {v : ℕ} {t : Ty} (ht : Resolved W s t) (hv : t = .var v) : s.bare v = none ∧ v ∈ W :=
    ht v (by rw [hv, Ty.bare_var]; exact .var)
  rcases hplain with ⟨v, rfl⟩ | ⟨g, as, hshape⟩
  · rw [unifyHeads_var_left, Ty.bare_var]
    exact unifyVar_settles hs hW (hvar ha rfl).1 (hvar ha rfl).2 hplain' hb
  rcases hplain' with ⟨v, rfl⟩ | ⟨h, bs, hshape'⟩
  · rw [unifyHeads_var_right hshape, Ty.bare_var]
    have hplain : a.Plain := .inr ⟨g, as, hshape⟩
    exact (unifyVar_settles hs hW (hvar hb rfl).1 (hvar hb rfl).2 hplain ha).symm
  rw [Ty.bare_of_shape hshape, Ty.bare_of_shape hshape']
  rcases unifyHeads_node hshape hshape' with ⟨hstep, hcompat, hlen⟩ | ⟨⟨e, hstep⟩, hne⟩
  · rw [hstep]
    obtain ⟨r, s', hcall, hkeeps, hout⟩ := hargs g h as bs hshape hshape' hlen
    have hmaps : (as.map Ty.bare).length = (bs.map Ty.bare).length := by
      rw [List.length_map, List.length_map, hlen]
    exact ⟨r, s', hcall, hkeeps, hout.node hcompat hmaps⟩
  · rw [hstep]
    refine .refl (r := .error e) (.clash hs hW (fun θ heq => ?_) nofun)
    rw [Unification.Term.bind_node, Unification.Term.bind_node, Term.node.injEq] at heq
    have hlen := congrArg List.length heq.2
    rw [List.length_map, List.length_map, List.length_map, List.length_map] at hlen
    exact hne heq.1 hlen

/-- **Unifying two types settles.** A recursive call meets smaller types under the same bindings, or
fewer variables are free. -/
theorem unify_settles (hs : Unification.Acyclic s.bare) (hW : Within W s.bare)
    (ha : Inside W a.bare) (hb : Inside W b.bare) :
    Settles W s [(a.bare, b.bare)] fun n => unify n a b s := by
  obtain ⟨σ, hσ⟩ := hs.exists_resolver
  induction hm : freeCount W s.bare using Nat.strongRecOn generalizing s a b σ with
  | _ m ihfree =>
  induction hk : sizeOf (a.bare.bind σ) using Nat.strongRecOn generalizing s a b with
  | _ k ihsize =>
    subst hm hk
    obtain ⟨a', ⟨N, happ⟩, hbare⟩ := applies_resolved hσ a
    obtain ⟨b', ⟨M, happ'⟩, hbare'⟩ := applies_resolved hσ b
    have hresolved {t t' : Ty} (ht : Inside W t.bare) (hbare : t'.bare = t.bare.bind σ) :
        Resolved W s t'.stripLabels := by
      intro v hv
      rw [Ty.bare_stripLabels, hbare] at hv
      exact ⟨hσ.free_of_occurs hv, hσ.inside hW ht v hv⟩
    have hheads : Settles W s [(a'.stripLabels.bare, b'.stripLabels.bare)] fun n =>
        (unifyHeads a'.stripLabels b'.stripLabels).run (unify n) s := by
      refine unifyHeads_settles hs hW (Ty.plain_stripLabels a') (Ty.plain_stripLabels b')
        (hresolved ha hbare) (hresolved hb hbare') fun g h as bs hshape hshape' hlen => ?_
      refine unifyEach_settles hlen (fun s₁ hs₁ hW₁ hsince l hl r hr => ?_) hs hW (.inl rfl)
      have hleft := hresolved ha hbare
      have hright := hresolved hb hbare'
      have hinside : Inside W l.bare := fun v hv => (hleft v (occurs_of_arg hshape hl hv)).2
      have hinside' : Inside W r.bare := fun v hv => (hright v (occurs_of_arg hshape' hr hv)).2
      rcases hsince with heq | hlt
      · have hfree (v : ℕ) (hv : Occurs v l.bare) : s.bare v = none :=
          (hleft v (occurs_of_arg hshape hl hv)).1
        have hlt : sizeOf (l.bare.bind σ) < sizeOf (a.bare.bind σ) := by
          rw [hσ.bind_eq_self hfree, ← hbare, ← Ty.bare_stripLabels a']
          exact sizeOf_bare_lt hshape hl
        exact ihsize _ hlt hs₁ hW₁ hinside hinside' (heq ▸ hσ) (congrArg _ heq) rfl
      · obtain ⟨σ₁, hσ₁⟩ := hs₁.exists_resolver
        exact ihfree _ hlt hs₁ hW₁ hinside hinside' σ₁ hσ₁ rfl
    obtain ⟨r, s', ⟨K, hrun⟩, hkeeps, hout⟩ := hheads
    rw [Ty.bare_stripLabels, Ty.bare_stripLabels, hbare, hbare'] at hout
    have hcall (n : ℕ) (hK : K ≤ n) (hN : N ≤ n) (hM : M ≤ n) :
        unify (n + 1) a b s = some (r, s') := by
      rw [unify, happ n hN, happ' n hM]
      exact hrun n hK
    refine ⟨r, s', ⟨max K (max N M) + 1, fun n hn => ?_⟩, hkeeps, .resolved hσ hout⟩
    obtain ⟨d, rfl⟩ := Nat.exists_eq_add_of_le' hn
    exact hcall (d + max K (max N M)) (by omega) (by omega) (by omega)

/-! ## The result -/

/-- What unifying two types comes to. Up to labels, and where it succeeds up to dimensions that may
unify, the types are made the same, and no more than it takes: every assignment of types to the
variables that respects the old bindings and makes the types the same is an instance of the new
substitution. Where it fails no assignment makes them the same. -/
structure Unified (a b : Ty) (s : Subst) (result : Except UnifyError Unit) (s' : Subst) :
    Prop where
  acyclic : s'.Acyclic
  keeps : ∀ v t, s.lookup v = some t → s'.lookup v = some t
  sound : result = .ok () → ∀ a' b', Applies s' a a' → Applies s' b b' →
    Agree Head.Compatible a'.bare b'.bare
  general : result = .ok () → ∀ θ, Solves θ s.bare → a.bare.bind θ = b.bare.bind θ →
    ∀ v t, Applies s' (.var v) t → θ v = t.bare.bind θ
  fails : result ≠ .ok () → ∀ θ, Solves θ s.bare → a.bare.bind θ ≠ b.bare.bind θ

/-- **Unification** under an acyclic substitution returns, and finds a most general unifier where
there is one. -/
theorem unify_unified (a b : Ty) (s : Subst) (hs : s.Acyclic) : ∃ result s',
    (∃ N, ∀ n, N ≤ n → unify n a b s = some (result, s')) ∧ Unified a b s result s' := by
  obtain ⟨W, hW⟩ := Unification.exists_inside (a.bare :: b.bare :: s.map fun p => p.2.bare)
  have hwithin : Within W s.bare := by
    intro v t hv
    obtain ⟨u, hu, rfl⟩ := Subst.bare_eq_some.mp hv
    obtain ⟨before, behind, rfl, -⟩ := List.lookup_eq_some_iff.mp hu
    have hmem : u.bare ∈ (before ++ (v, u) :: behind).map fun p : ℕ × Ty => p.2.bare :=
      List.mem_map_of_mem (List.mem_append_right _ List.mem_cons_self)
    exact hW _ (List.mem_cons_of_mem _ (List.mem_cons_of_mem _ hmem))
  obtain ⟨r, s', hcall, hkeeps, hout⟩ := unify_settles hs.bare hwithin
    (hW a.bare List.mem_cons_self) (hW b.bare (List.mem_cons_of_mem _ List.mem_cons_self))
  obtain ⟨σ, hσ⟩ := hout.acyclic.exists_resolver
  refine ⟨r, s', hcall, Subst.acyclic_iff.mpr hout.acyclic, hkeeps, ?_, ?_, ?_⟩
  · intro hok a' b' ha hb
    rw [ha.bare_eq hσ, hb.bare_eq hσ]
    exact hout.sound hok σ hσ.solves _ List.mem_cons_self
  · intro hok θ hθ heq v t ht
    have hsolves := hout.general hok θ hθ fun p hp => by rwa [List.mem_singleton.mp hp]
    rw [ht.bare_eq hσ, hσ.bind_bind hsolves, Ty.bare_var, Unification.Term.bind_var]
  · intro herr θ hθ heq
    exact hout.fails herr θ hθ fun p hp => by rwa [List.mem_singleton.mp hp]

/-- **A substitution that extends the old one** and makes the types the same up to labels factors
through the new one. -/
theorem Unified.factors {ext : Subst} {a' b' : Ty} (h : Unified a b s (.ok ()) s')
    (hext : ext.Acyclic) (hkeeps : ∀ v t, s.lookup v = some t → ext.lookup v = some t)
    (ha : Applies ext a a') (hb : Applies ext b b') (heq : a'.bare = b'.bare) :
    ∃ θ : ℕ → Term Head, ∀ v t u, Applies s' (.var v) t → Applies ext (.var v) u →
      u.bare = t.bare.bind θ := by
  obtain ⟨θ, hθ⟩ := hext.bare.exists_resolver
  have hsolves : Solves θ s.bare := by
    intro v t hv
    obtain ⟨u, hu, rfl⟩ := Subst.bare_eq_some.mp hv
    exact hθ.solves v _ (Subst.bare_eq_some.mpr ⟨u, hkeeps v u hu, rfl⟩)
  rw [ha.bare_eq hθ, hb.bare_eq hθ] at heq
  refine ⟨θ, fun v t u ht hu => ?_⟩
  rw [hu.bare_eq hθ, Ty.bare_var, Unification.Term.bind_var]
  exact h.general rfl θ hsolves heq v t ht

theorem Subst.acyclic_nil : Subst.Acyclic [] :=
  Subst.acyclic_iff.mpr ⟨fun _ => 0, fun _ _ hv => by cases hv⟩

/-- A variable that stands for a labelled one meets an option, and another variable a word. -/
theorem labelledVar_unified : Unified (.tuple [.var 2, .var 1]) (.tuple [.option (.var 1), .word])
    [(2, .labelled (.var 0) ["secret"])] (.ok ())
    [(1, .word), (0, .option (.var 1)), (2, .labelled (.var 0) ["secret"])] := by
  have hs : Subst.Acyclic [(2, .labelled (.var 0) ["secret"])] := by
    rw [Subst.acyclic_iff, Subst.bare_cons]
    refine (Subst.acyclic_iff.mp Subst.acyclic_nil).update rfl (fun _ _ => rfl) ?_
    rw [Ty.bare_labelled, Ty.bare_var, Unification.Term.occurs_var]
    decide
  obtain ⟨result, s', ⟨N, hcall⟩, h⟩ := unify_unified (.tuple [.var 2, .var 1])
    (.tuple [.option (.var 1), .word]) [(2, .labelled (.var 0) ["secret"])] hs
  have hrun : some (Except.ok (), [(1, .word), (0, .option (.var 1)),
      (2, .labelled (.var 0) ["secret"])]) = some (result, s') :=
    hcall (N + 5) (Nat.le_add_right N 5)
  obtain ⟨rfl, rfl⟩ := Prod.mk.inj (Option.some.inj hrun)
  exact h

/-- **Lengths that are left to a later check**: the unifier has bound the variable to an array of
the one length when it meets the other, and fails. A symbolic length goes with both. -/
theorem deferredLengths_refused :
    ¬ ∀ (a b : Ty) (s : Subst), s.Acyclic → ∀ n e s', unify n a b s = some (.error e, s') →
      ∀ θ, Solves θ s.bare → ¬ Agree Head.Compatible (a.bare.bind θ) (b.bare.bind θ) := by
  intro h
  refine h (.tuple [.var 0, .var 0]) (.tuple [.array .word (.known 3), .array .word (.known 4)]) []
    Subst.acyclic_nil 5 _ _ rfl (fun _ => (Ty.array .word (.sym "n")).bare)
    (fun _ _ hv => by cases hv) ?_
  have harray (k : ℤ) : Agree Head.Compatible (Ty.array .word (.sym "n")).bare
      (Ty.array .word (.known k)).bare := by
    refine .node (.array rfl) rfl fun p hp => ?_
    obtain rfl := List.mem_singleton.mp hp
    exact .refl .refl _
  have hleft (θ : ℕ → Term Head) : (Ty.tuple [.var 0, .var 0]).bare.bind θ =
      .node .tuple [θ 0, θ 0] := by
    simp [Ty.bare, Ty.bareAll]
  have hright (θ : ℕ → Term Head) :
      (Ty.tuple [.array .word (.known 3), .array .word (.known 4)]).bare.bind θ =
        .node .tuple [(Ty.array .word (.known 3)).bare, (Ty.array .word (.known 4)).bare] := by
    simp [Ty.bare, Ty.bareAll]
  rw [hleft, hright]
  refine .node (.refl _) rfl fun p hp => ?_
  rcases List.mem_cons.mp hp with rfl | hp
  · exact harray 3
  · obtain rfl := List.mem_singleton.mp hp
    exact harray 4

end Keleusma.Matching
