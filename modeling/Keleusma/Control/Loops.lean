import Keleusma.Control.Blocks

/-!
# Loops in a tree of blocks

The delimiters of a loop name the positions behind each other (`LoopAt`). In a well-nested chunk
every `Loop` and every `EndLoop` is a delimiter of such a loop, and loops do not cross
(`WellNested.loop_inside`).
-/

namespace Keleusma

variable {ops : List Op} {x : Option ℕ} {lo hi : ℕ}

/-- A loop from its `Loop` to its `EndLoop`, each of which names the position behind the other. -/
structure LoopAt (ops : List Op) (p e : ℕ) : Prop where
  lt : p < e
  opens : ops[p]? = some (.loop (e + 1))
  closes : ops[e]? = some (.endLoop (p + 1))

/-- A position of a region is inside of it: a loop that opens there has its body and its end in the
region, and one that ends there opens in it. -/
structure LoopsIn (ops : List Op) (lo hi q : ℕ) : Prop where
  opens : ∀ t, ops[q]? = some (.loop t) → ∃ e < hi, t = e + 1 ∧ LoopAt ops q e ∧
    Region Eq ops (some t) (q + 1) e
  closes : ∀ t, ops[q]? = some (.endLoop t) → ∃ p, lo ≤ p ∧ t = p + 1 ∧ LoopAt ops p q

theorem LoopsIn.mono {lo' hi' q : ℕ} (h : LoopsIn ops lo' hi' q) (hlo : lo ≤ lo') (hhi : hi' ≤ hi) :
    LoopsIn ops lo hi q := by
  constructor
  · intro t ht
    obtain ⟨e, he, hloop⟩ := h.opens t ht
    exact ⟨e, by omega, hloop⟩
  · intro t ht
    obtain ⟨p, hp, hloop⟩ := h.closes t ht
    exact ⟨p, by omega, hloop⟩

/-- An instruction that is no delimiter of a loop. -/
theorem LoopsIn.other {q : ℕ} {op : Op} (hop : ops[q]? = some op) (hloop : ∀ t, op ≠ .loop t)
    (hend : ∀ t, op ≠ .endLoop t) : LoopsIn ops lo hi q := by
  constructor
  · intro t ht
    exact absurd (Option.some.inj (hop.symm.trans ht)) (hloop t)
  · intro t ht
    exact absurd (Option.some.inj (hop.symm.trans ht)) (hend t)

/-- **The loops of a region are nested in it.** -/
theorem Region.loopsIn (h : Region Eq ops x lo hi) {q : ℕ} (hlo : lo ≤ q) (hhi : q < hi) :
    LoopsIn ops lo hi q := by
  induction h with
  | nil => omega
  | leaf hop hd rest ih =>
    rcases Nat.eq_or_lt_of_le hlo with rfl | hlt
    · exact .other hop (fun t => by rintro rfl; cases hd) fun t => by rintro rfl; cases hd
    · exact (ih hlt hhi).mono (Nat.le_succ _) (le_refl _)
  | «break» hop rest ih =>
    rcases Nat.eq_or_lt_of_le hlo with rfl | hlt
    · exact .other hop nofun nofun
    · exact (ih hlt hhi).mono (Nat.le_succ _) (le_refl _)
  | breakIf hop rest ih =>
    rcases Nat.eq_or_lt_of_le hlo with rfl | hlt
    · exact .other hop nofun nofun
    · exact (ih hlt hhi).mono (Nat.le_succ _) (le_refl _)
  | @ifThen _ lo e hi hif body hend rest ihb ihr =>
    have hle := body.le
    have hle' := rest.le
    rcases Nat.eq_or_lt_of_le hlo with rfl | hlt
    · exact .other hif nofun nofun
    rcases lt_trichotomy q e with hlt' | rfl | hgt
    · exact (ihb hlt hlt').mono (by omega) (by omega)
    · exact .other hend nofun nofun
    · exact (ihr hgt hhi).mono (by omega) (le_refl _)
  | @ifElse _ lo m t e hi hif thenBody helse hown elseBody hend rest iht ihe ihr =>
    have hle := thenBody.le
    have hle' := elseBody.le
    have hle'' := rest.le
    rcases Nat.eq_or_lt_of_le hlo with rfl | hlt
    · exact .other hif nofun nofun
    rcases lt_trichotomy q m with hlt' | rfl | hgt
    · exact (iht hlt hlt').mono (by omega) (by omega)
    · exact .other helse nofun nofun
    rcases lt_trichotomy q e with hlt' | rfl | hgt'
    · exact (ihe hgt hlt').mono (by omega) (by omega)
    · exact .other hend nofun nofun
    · exact (ihr hgt' hhi).mono (by omega) (le_refl _)
  | @loop _ lo e hi hloop body hend rest ihb ihr =>
    have hle := body.le
    have hle' := rest.le
    have hat : LoopAt ops lo e := ⟨by omega, hloop, hend⟩
    rcases Nat.eq_or_lt_of_le hlo with rfl | hlt
    · constructor
      · intro t ht
        cases hloop.symm.trans ht
        exact ⟨e, by omega, rfl, hat, body⟩
      · intro t ht
        cases hloop.symm.trans ht
    rcases lt_trichotomy q e with hlt' | rfl | hgt
    · exact (ihb hlt hlt').mono (by omega) (by omega)
    · constructor
      · intro t ht
        cases hend.symm.trans ht
      · intro t ht
        cases hend.symm.trans ht
        exact ⟨lo, le_refl _, rfl, hat⟩
    · exact (ihr hgt hhi).mono (by omega) (le_refl _)

/-- Every jump but the back-edge of a loop goes forward. -/
theorem Region.jump_lt (h : Region Eq ops x lo hi) (hx : ∀ k, x = some k → hi ≤ k) {q t : ℕ}
    (hlo : lo ≤ q) (hhi : q < hi) (hjump : ops[q]? = some (.ifOp t) ∨ ops[q]? = some (.elseOp t) ∨
      ops[q]? = some (.break t) ∨ ops[q]? = some (.breakIf t)) : q < t := by
  have hother : ∀ {op : Op}, ops[q]? = some op → (∀ t, op ≠ .ifOp t ∧ op ≠ .elseOp t) →
      (∀ t, op ≠ .break t ∧ op ≠ .breakIf t) → q < t := by
    intro op hop hif hbreak
    rcases hjump with h | h | h | h
    · exact absurd (Option.some.inj (hop.symm.trans h)) (hif t).1
    · exact absurd (Option.some.inj (hop.symm.trans h)) (hif t).2
    · exact absurd (Option.some.inj (hop.symm.trans h)) (hbreak t).1
    · exact absurd (Option.some.inj (hop.symm.trans h)) (hbreak t).2
  induction h with
  | nil => omega
  | leaf hop hd rest ih =>
    rcases Nat.eq_or_lt_of_le hlo with rfl | hlt
    · refine hother hop (fun t => ?_) fun t => ?_
      · constructor <;> rintro rfl <;> cases hd
      · constructor <;> rintro rfl <;> cases hd
    · exact ih hx hlt hhi
  | @«break» k lo hi hop rest ih =>
    have hle := rest.le
    have hk := hx _ rfl
    rcases Nat.eq_or_lt_of_le hlo with rfl | hlt
    · simp only [hop, Option.some.injEq, reduceCtorEq, Op.break.injEq, false_or, or_false] at hjump
      omega
    · exact ih hx hlt hhi
  | @breakIf k lo hi hop rest ih =>
    have hle := rest.le
    have hk := hx _ rfl
    rcases Nat.eq_or_lt_of_le hlo with rfl | hlt
    · simp only [hop, Option.some.injEq, reduceCtorEq, Op.breakIf.injEq, false_or] at hjump
      omega
    · exact ih hx hlt hhi
  | @ifThen _ lo e hi hif body hend rest ihb ihr =>
    have hle := body.le
    have hle' := rest.le
    rcases Nat.eq_or_lt_of_le hlo with rfl | hlt
    · simp only [hif, Option.some.injEq, reduceCtorEq, Op.ifOp.injEq, or_false] at hjump
      omega
    rcases lt_trichotomy q e with hlt' | rfl | hgt
    · exact ihb (fun k hk => (by omega : e ≤ hi).trans (hx k hk)) hlt hlt'
    · exact hother hend (fun _ => ⟨nofun, nofun⟩) fun _ => ⟨nofun, nofun⟩
    · exact ihr hx hgt hhi
  | @ifElse _ lo m t' e hi hif thenBody helse hown elseBody hend rest iht ihe ihr =>
    have hle := thenBody.le
    have hle' := elseBody.le
    have hle'' := rest.le
    rcases Nat.eq_or_lt_of_le hlo with rfl | hlt
    · simp only [hif, Option.some.injEq, reduceCtorEq, Op.ifOp.injEq, or_false] at hjump
      omega
    rcases lt_trichotomy q m with hlt' | rfl | hgt
    · exact iht (fun k hk => (by omega : m ≤ hi).trans (hx k hk)) hlt hlt'
    · simp only [helse, Option.some.injEq, reduceCtorEq, Op.elseOp.injEq, or_false, false_or]
        at hjump
      omega
    rcases lt_trichotomy q e with hlt' | rfl | hgt'
    · exact ihe (fun k hk => (by omega : e ≤ hi).trans (hx k hk)) hgt hlt'
    · exact hother hend (fun _ => ⟨nofun, nofun⟩) fun _ => ⟨nofun, nofun⟩
    · exact ihr hx hgt' hhi
  | @loop _ lo e hi hloop body hend rest ihb ihr =>
    have hle := body.le
    have hle' := rest.le
    rcases Nat.eq_or_lt_of_le hlo with rfl | hlt
    · exact hother hloop (fun _ => ⟨nofun, nofun⟩) fun _ => ⟨nofun, nofun⟩
    rcases lt_trichotomy q e with hlt' | rfl | hgt
    · refine ihb (fun k hk => ?_) hlt hlt'
      cases hk
      exact Nat.le_succ _
    · exact hother hend (fun _ => ⟨nofun, nofun⟩) fun _ => ⟨nofun, nofun⟩
    · exact ihr hx hgt hhi

theorem WellNested.loopsIn (h : WellNested ops) {q : ℕ} (hq : q < ops.length) :
    LoopsIn ops 0 ops.length q :=
  Region.loopsIn h (Nat.zero_le _) hq

end Keleusma
