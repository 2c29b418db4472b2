import Keleusma.Verify.Structure

/-!
# Blocks

The instructions of a chunk are meant to form a tree of `If`, `Else`, `EndIf` and `Loop`,
`EndLoop` blocks. `Region` says that a range of positions is a sequence of such trees whose
operands name the delimiters of their own blocks; what the operand of an `Else` must name is a
parameter, since pass 1 of the verifier leaves it open (`nestingPass_region`). `closingAt` finds
the delimiter that closes a block by counting, and `ElseMatched` says that every `Else` names it.
-/

namespace Keleusma

/-- The instructions that delimit blocks or leave loops. -/
def Op.isDelimiter : Op → Bool
  | .ifOp _ | .elseOp _ | .endIf | .loop _ | .endLoop _ | .break _ | .breakIf _ => true
  | _ => false

/-- The range from `lo` to `hi` is a sequence of blocks inside a loop with the given exit, or
inside none. An `Else` with operand `t` may stand in a block that `EndIf` closes at `e` when
`own t e` holds. -/
inductive Region (own : ℕ → ℕ → Prop) (ops : List Op) : Option ℕ → ℕ → ℕ → Prop
  | nil {x lo} : Region own ops x lo lo
  | leaf {x lo hi op} (hop : ops[lo]? = some op) (hd : op.isDelimiter = false)
      (rest : Region own ops x (lo + 1) hi) : Region own ops x lo hi
  | break {x lo hi} (hop : ops[lo]? = some (.break x)) (rest : Region own ops (some x) (lo + 1) hi) :
      Region own ops (some x) lo hi
  | breakIf {x lo hi} (hop : ops[lo]? = some (.breakIf x))
      (rest : Region own ops (some x) (lo + 1) hi) : Region own ops (some x) lo hi
  | ifThen {x lo e hi} (hif : ops[lo]? = some (.ifOp e)) (body : Region own ops x (lo + 1) e)
      (hend : ops[e]? = some .endIf) (rest : Region own ops x (e + 1) hi) : Region own ops x lo hi
  | ifElse {x lo m t e hi} (hif : ops[lo]? = some (.ifOp (m + 1)))
      (thenBody : Region own ops x (lo + 1) m) (helse : ops[m]? = some (.elseOp t))
      (hown : own t e) (elseBody : Region own ops x (m + 1) e) (hend : ops[e]? = some .endIf)
      (rest : Region own ops x (e + 1) hi) : Region own ops x lo hi
  | loop {x lo e hi} (hloop : ops[lo]? = some (.loop (e + 1)))
      (body : Region own ops (some (e + 1)) (lo + 1) e)
      (hend : ops[e]? = some (.endLoop (lo + 1))) (rest : Region own ops x (e + 1) hi) :
      Region own ops x lo hi

/-- The chunk is a tree of blocks in which every operand names the delimiter of its own block. -/
def WellNested (ops : List Op) : Prop := Region Eq ops none 0 ops.length

/-- The position of the delimiter that closes the block a list of instructions lies in, when the
list begins at `ip` with `depth` blocks open inside. -/
def closing : ℕ → ℕ → List Op → Option ℕ
  | _, _, [] => none
  | ip, depth, .ifOp _ :: rest | ip, depth, .loop _ :: rest => closing (ip + 1) (depth + 1) rest
  | ip, 0, .endIf :: _ | ip, 0, .endLoop _ :: _ => some ip
  | ip, depth + 1, .endIf :: rest | ip, depth + 1, .endLoop _ :: rest => closing (ip + 1) depth rest
  | ip, depth, _ :: rest => closing (ip + 1) depth rest

/-- The position of the delimiter that closes the innermost block open at a position. -/
def closingAt (ops : List Op) (ip : ℕ) : Option ℕ := closing ip 0 (ops.drop ip)

/-- Every `Else` names the delimiter that closes its block. -/
def ElseMatched (ops : List Op) : Prop :=
  ∀ ip t, ops[ip]? = some (.elseOp t) → closingAt ops (ip + 1) = some t

variable {own : ℕ → ℕ → Prop} {ops : List Op} {x : Option ℕ} {lo hi : ℕ}

theorem drop_of_getElem? {op : Op} {ip : ℕ} (h : ops[ip]? = some op) :
    ops.drop ip = op :: ops.drop (ip + 1) := by
  obtain ⟨hlt, rfl⟩ := List.getElem?_eq_some_iff.mp h
  exact List.drop_eq_getElem_cons hlt

theorem Region.le (h : Region own ops x lo hi) : lo ≤ hi := by
  induction h with
  | nil => exact Nat.le_refl _
  | leaf _ _ _ ih => omega
  | «break» _ _ ih => omega
  | breakIf _ _ ih => omega
  | ifThen _ _ _ _ ihb ihr => omega
  | ifElse _ _ _ _ _ _ _ iht ihe ihr => omega
  | loop _ _ _ _ ihb ihr => omega

theorem Region.le_length (h : Region own ops x lo hi) (hlo : lo ≤ ops.length) :
    hi ≤ ops.length := by
  induction h with
  | nil => exact hlo
  | leaf hop _ _ ih => exact ih (List.getElem?_eq_some_iff.mp hop).1
  | «break» hop _ ih => exact ih (List.getElem?_eq_some_iff.mp hop).1
  | breakIf hop _ ih => exact ih (List.getElem?_eq_some_iff.mp hop).1
  | ifThen _ _ hend _ _ ihr => exact ihr (List.getElem?_eq_some_iff.mp hend).1
  | ifElse _ _ _ _ _ hend _ _ _ ihr => exact ihr (List.getElem?_eq_some_iff.mp hend).1
  | loop _ _ hend _ _ ihr => exact ihr (List.getElem?_eq_some_iff.mp hend).1

/-! ## Counting blocks -/

theorem closing_leaf {op : Op} {ip depth : ℕ} (h : ops[ip]? = some op)
    (hd : op.isDelimiter = false) :
    closing ip depth (ops.drop ip) = closing (ip + 1) depth (ops.drop (ip + 1)) := by
  rw [drop_of_getElem? h]
  cases op <;> first | rfl | cases hd

theorem closing_open {op : Op} {ip depth t : ℕ} (h : ops[ip]? = some op)
    (ho : op = .ifOp t ∨ op = .loop t) :
    closing ip depth (ops.drop ip) = closing (ip + 1) (depth + 1) (ops.drop (ip + 1)) := by
  rw [drop_of_getElem? h]
  rcases ho with rfl | rfl <;> rfl

theorem closing_close {op : Op} {ip depth t : ℕ} (h : ops[ip]? = some op)
    (ho : op = .endIf ∨ op = .endLoop t) :
    closing ip (depth + 1) (ops.drop ip) = closing (ip + 1) depth (ops.drop (ip + 1)) := by
  rw [drop_of_getElem? h]
  rcases ho with rfl | rfl <;> rfl

theorem closing_zero {op : Op} {ip t : ℕ} (h : ops[ip]? = some op)
    (ho : op = .endIf ∨ op = .endLoop t) : closing ip 0 (ops.drop ip) = some ip := by
  rw [drop_of_getElem? h]
  rcases ho with rfl | rfl <;> rfl

theorem closing_skip {op : Op} {ip depth t : ℕ} (h : ops[ip]? = some op)
    (ho : op = .elseOp t ∨ op = .break t ∨ op = .breakIf t) :
    closing ip depth (ops.drop ip) = closing (ip + 1) depth (ops.drop (ip + 1)) := by
  rw [drop_of_getElem? h]
  rcases ho with rfl | rfl | rfl <;> rfl

/-- What counting finds is a closing delimiter. -/
theorem closing_delimiter {ip depth e : ℕ} {l : List Op} (h : closing ip depth l = some e) :
    ip ≤ e ∧ (l[e - ip]? = some .endIf ∨ ∃ t, l[e - ip]? = some (.endLoop t)) := by
  fun_induction closing ip depth l with
  | case1 => cases h
  | case4 | case5 =>
    cases h
    simp
  | _ =>
    rename_i ih
    obtain ⟨hle, hop⟩ := ih h
    obtain ⟨k, rfl⟩ := Nat.exists_eq_add_of_le hle
    refine ⟨by omega, ?_⟩
    rw [Nat.add_sub_cancel_left] at hop
    rwa [Nat.add_assoc, Nat.add_sub_cancel_left, Nat.add_comm 1 k, List.getElem?_cons_succ]

/-- A region is balanced: it may be skipped when counting. -/
theorem Region.closing_eq (h : Region own ops x lo hi) (depth : ℕ) :
    closing lo depth (ops.drop lo) = closing hi depth (ops.drop hi) := by
  induction h generalizing depth with
  | nil => rfl
  | leaf hop hd _ ih => rw [closing_leaf hop hd, ih]
  | «break» hop _ ih => rw [closing_skip hop (.inr (.inl rfl)), ih]
  | breakIf hop _ ih => rw [closing_skip hop (.inr (.inr rfl)), ih]
  | ifThen hif _ hend _ ihb ihr =>
    rw [closing_open hif (.inl rfl), ihb, closing_close (t := 0) hend (.inl rfl), ihr]
  | ifElse hif _ helse _ _ hend _ iht ihe ihr =>
    rw [closing_open hif (.inl rfl), iht, closing_skip helse (.inl rfl), ihe,
      closing_close (t := 0) hend (.inl rfl), ihr]
  | loop hloop _ hend _ ihb ihr =>
    rw [closing_open hloop (.inr rfl), ihb, closing_close hend (.inr rfl), ihr]

/-- A region up to an `EndIf` is closed by it. -/
theorem Region.closingAt_endIf {e : ℕ} (h : Region own ops x lo e) (hend : ops[e]? = some .endIf) :
    closingAt ops lo = some e := by
  rw [closingAt, h.closing_eq, closing_zero (t := 0) hend (.inl rfl)]

/-- **In a tree of blocks, matched `Else` operands are all that is missing.** -/
theorem Region.matched (h : Region own ops x lo hi) (hm : ElseMatched ops) :
    Region Eq ops x lo hi := by
  induction h with
  | nil => exact .nil
  | leaf hop hd _ ih => exact .leaf hop hd ih
  | «break» hop _ ih => exact .break hop ih
  | breakIf hop _ ih => exact .breakIf hop ih
  | ifThen hif _ hend _ ihb ihr => exact .ifThen hif ihb hend ihr
  | ifElse hif _ helse _ helseBody hend _ iht ihe ihr =>
    have hc := hm _ _ helse
    rw [helseBody.closingAt_endIf hend] at hc
    exact .ifElse hif iht helse (Option.some.inj hc).symm ihe hend ihr
  | loop hloop _ hend _ ihb ihr => exact .loop hloop ihb hend ihr

/-- Every `Else` in a matched region names the delimiter that closes its block. -/
theorem Region.elseMatched (h : Region Eq ops x lo hi) {ip t : ℕ} (hlo : lo ≤ ip) (hhi : ip < hi)
    (helse : ops[ip]? = some (.elseOp t)) : closingAt ops (ip + 1) = some t := by
  induction h with
  | nil => omega
  | @leaf _ lo _ op hop hd _ ih =>
    rcases Nat.eq_or_lt_of_le hlo with rfl | hlt
    · cases hop.symm.trans helse
      cases hd
    · exact ih hlt hhi
  | @«break» _ lo _ hop _ ih =>
    rcases Nat.eq_or_lt_of_le hlo with rfl | hlt
    · cases hop.symm.trans helse
    · exact ih hlt hhi
  | @breakIf _ lo _ hop _ ih =>
    rcases Nat.eq_or_lt_of_le hlo with rfl | hlt
    · cases hop.symm.trans helse
    · exact ih hlt hhi
  | @ifThen _ lo e _ hif body hend _ ihb ihr =>
    rcases Nat.eq_or_lt_of_le hlo with rfl | hlt
    · cases hif.symm.trans helse
    rcases lt_trichotomy ip e with hlt' | rfl | hgt
    · exact ihb hlt hlt'
    · cases hend.symm.trans helse
    · exact ihr hgt hhi
  | @ifElse _ lo m t' e _ hif _ hm hown elseBody hend _ iht ihe ihr =>
    rcases Nat.eq_or_lt_of_le hlo with rfl | hlt
    · cases hif.symm.trans helse
    rcases lt_trichotomy ip m with hlt' | rfl | hgt
    · exact iht hlt hlt'
    · cases hm.symm.trans helse
      rw [hown]
      exact elseBody.closingAt_endIf hend
    rcases lt_trichotomy ip e with hlt' | rfl | hgt'
    · exact ihe hgt hlt'
    · cases hend.symm.trans helse
    · exact ihr hgt' hhi
  | @loop _ lo e _ hloop _ hend _ ihb ihr =>
    rcases Nat.eq_or_lt_of_le hlo with rfl | hlt
    · cases hloop.symm.trans helse
    rcases lt_trichotomy ip e with hlt' | rfl | hgt
    · exact ihb hlt hlt'
    · cases hend.symm.trans helse
    · exact ihr hgt hhi

theorem WellNested.elseMatched (h : WellNested ops) : ElseMatched ops := fun _ _ helse =>
  Region.elseMatched h (Nat.zero_le _) (List.getElem?_eq_some_iff.mp helse).1 helse

end Keleusma
