import Keleusma.Control.Loops
import Keleusma.Control.Transfers

/-!
# Straight-line code

In a well-nested chunk control comes to a position from the one before it, unless an `EndIf` is
there or an `Else`, a `Loop` or an `EndLoop` is before it (`WellNested.comes_from`). So control goes
through a piece of a chunk without delimiters from its first instruction on, one after the other.
-/

namespace Keleusma

variable {ops : List Op} {x : Option ℕ} {lo hi q q' p : ℕ} {op : Op}

/-- The instructions behind which control may come from elsewhere. -/
def Op.isLanding : Op → Bool
  | .elseOp _ | .loop _ | .endLoop _ => true
  | _ => false

/-- A position to which control may go: the next one, an `EndIf`, or one behind an `Else`, a `Loop`
or an `EndLoop`. -/
inductive Lands (ops : List Op) (q q' : ℕ) : Prop
  | next (h : q' = q + 1)
  | endIf (h : ops[q']? = some .endIf)
  | behind {p : ℕ} {op : Op} (hq : q' = p + 1) (hop : ops[p]? = some op) (h : op.isLanding = true)

/-- **Where control goes within a tree of blocks.** -/
theorem Region.lands (h : Region Eq ops x lo hi)
    (hx : ∀ k, x = some k → ∃ e t, k = e + 1 ∧ ops[e]? = some (.endLoop t)) (hlo : lo ≤ q)
    (hhi : q < hi) (hop : ops[q]? = some op) (hn : q' ∈ op.next q) : Lands ops q q' := by
  induction h with
  | nil => omega
  | @leaf _ lo hi o ho hd rest ih =>
    rcases Nat.eq_or_lt_of_le hlo with rfl | hlt
    · cases ho.symm.trans hop
      exact .next (next_leaf hd hn)
    · exact ih hx hlt hhi
  | @«break» k lo hi ho rest ih =>
    rcases Nat.eq_or_lt_of_le hlo with rfl | hlt
    · cases ho.symm.trans hop
      obtain rfl := List.mem_singleton.mp hn
      obtain ⟨e, t, rfl, he⟩ := hx _ rfl
      exact .behind rfl he rfl
    · exact ih hx hlt hhi
  | @breakIf k lo hi ho rest ih =>
    rcases Nat.eq_or_lt_of_le hlo with rfl | hlt
    · cases ho.symm.trans hop
      rcases List.mem_cons.mp hn with rfl | hn
      · exact .next rfl
      · obtain rfl := List.mem_singleton.mp hn
        obtain ⟨e, t, rfl, he⟩ := hx _ rfl
        exact .behind rfl he rfl
    · exact ih hx hlt hhi
  | @ifThen _ lo e hi hif body hend rest ihb ihr =>
    rcases Nat.eq_or_lt_of_le hlo with rfl | hlt
    · cases hif.symm.trans hop
      rcases List.mem_cons.mp hn with rfl | hn
      · exact .next rfl
      · obtain rfl := List.mem_singleton.mp hn
        exact .endIf hend
    rcases lt_trichotomy q e with hlt' | rfl | hgt
    · exact ihb hx hlt hlt'
    · cases hend.symm.trans hop
      exact .next (List.mem_singleton.mp hn)
    · exact ihr hx hgt hhi
  | @ifElse _ lo m t e hi hif thenBody helse hown elseBody hend rest iht ihe ihr =>
    rcases Nat.eq_or_lt_of_le hlo with rfl | hlt
    · cases hif.symm.trans hop
      rcases List.mem_cons.mp hn with rfl | hn
      · exact .next rfl
      · obtain rfl := List.mem_singleton.mp hn
        exact .behind rfl helse rfl
    rcases lt_trichotomy q m with hlt' | rfl | hgt
    · exact iht hx hlt hlt'
    · cases helse.symm.trans hop
      obtain rfl := List.mem_singleton.mp hn
      rw [hown]
      exact .endIf hend
    rcases lt_trichotomy q e with hlt' | rfl | hgt'
    · exact ihe hx hgt hlt'
    · cases hend.symm.trans hop
      exact .next (List.mem_singleton.mp hn)
    · exact ihr hx hgt' hhi
  | @loop _ lo e hi hloop body hend rest ihb ihr =>
    rcases Nat.eq_or_lt_of_le hlo with rfl | hlt
    · cases hloop.symm.trans hop
      exact .next (List.mem_singleton.mp hn)
    rcases lt_trichotomy q e with hlt' | rfl | hgt
    · refine ihb ?_ hlt hlt'
      rintro _ ⟨⟩
      exact ⟨e, _, rfl, hend⟩
    · cases hend.symm.trans hop
      exact .behind (List.mem_singleton.mp hn) hloop rfl
    · exact ihr hx hgt hhi

/-- **Control comes to a position from the one before it**, where nothing lets it come from
elsewhere. -/
theorem WellNested.comes_from (h : WellNested ops) (hop : ops[q]? = some op)
    (hn : p + 1 ∈ op.next q) {o : Op} (hp : ops[p]? = some o) (ho : o.isLanding = false)
    (hend : ops[p + 1]? ≠ some .endIf) : q = p := by
  have hlands : Lands ops q (p + 1) := Region.lands h (by rintro _ ⟨⟩) (Nat.zero_le q)
    (List.getElem?_eq_some_iff.mp hop).1 hop hn
  cases hlands with
  | next heq => exact (Nat.succ.inj heq).symm
  | endIf he => exact absurd he hend
  | behind hq hop' hland =>
    obtain rfl := Nat.succ.inj hq
    rw [Option.some.inj (hp.symm.trans hop'), hland] at ho
    cases ho

/-- A region does not begin with an `EndIf`. -/
theorem Region.head_ne_endIf {own : ℕ → ℕ → Prop} (h : Region own ops x lo hi) (hlt : lo < hi) :
    ops[lo]? ≠ some .endIf := by
  intro hend
  cases h with
  | nil => exact absurd hlt (lt_irrefl lo)
  | leaf hop hd _ => cases hop.symm.trans hend; cases hd
  | «break» hop _ => cases hop.symm.trans hend
  | breakIf hop _ => cases hop.symm.trans hend
  | ifThen hop _ _ _ => cases hop.symm.trans hend
  | ifElse hop _ _ _ _ _ _ => cases hop.symm.trans hend
  | loop hop _ _ _ => cases hop.symm.trans hend

end Keleusma
