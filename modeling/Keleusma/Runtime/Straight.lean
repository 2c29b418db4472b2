import Keleusma.Runtime.Stepping

/-!
# Straight-line code on the operand stack

What the instructions around a counted loop do to the operand stack: they push a constant or a
local, set a local, compare and add integers, and drop operands (`Quick`). A piece of such code
takes one stack to another (`Runs`).
-/

namespace Keleusma

variable {F : Type} {env : Env F}

/-- What one of these instructions does to the stack of a frame. `CmpGe` and `CheckedAdd` also take
operands that are not integers; then the table does not say what they leave. -/
inductive Quick (env : Env F) (chunkIdx base : ℕ) : Op → List (Value F) → List (Value F) → Prop
  | const (idx : ℕ) (st : List (Value F)) :
      Quick env chunkIdx base (.const idx) st (st ++ [env.chunkConst chunkIdx idx])
  | getLocal {slot : ℕ} {st : List (Value F)} {v : Value F} (h : st[base + slot]? = some v) :
      Quick env chunkIdx base (.getLocal slot) st (st ++ [v])
  | setLocal {slot : ℕ} {st : List (Value F)} (v : Value F) (h : base + slot < st.length) :
      Quick env chunkIdx base (.setLocal slot) (st ++ [v]) (st.set (base + slot) v)
  | cmpGe (st : List (Value F)) {v w r : Value F}
      (h : ∀ x y, v = .int x → w = .int y → r = .bool (compare x y).isGE) :
      Quick env chunkIdx base .cmpGe (st ++ [v, w]) (st ++ [r])
  | checkedAdd (st : List (Value F)) {v w low high flag : Value F}
      (h : ∀ x y, v = .int x → w = .int y → low = .int (checkedArithOutputs env.runtimeBitsLog2
        env.module.wordBitsLog2 (x + y)).1) :
      Quick env chunkIdx base .checkedAdd (st ++ [v, w]) (st ++ [low, high, flag])
  | popN (st vs : List (Value F)) : Quick env chunkIdx base (.popN vs.length) (st ++ vs) st

/-- The instructions of the table. -/
def Op.isQuick : Op → Bool
  | .const _ | .getLocal _ | .setLocal _ | .cmpGe | .checkedAdd | .popN _ => true
  | _ => false

variable {chunkIdx base : ℕ} {op : Op} {s s' : Vm F}

theorem getLast?_eq {v : Value F} {l : List (Value F)} (h : l.getLast? = some v) :
    l = l.dropLast ++ [v] :=
  (List.dropLast_append_getLast? v h).symm

theorem pop_pop_ok {α : Type} {k : Value F → Value F → Exec F α} {a : α}
    (h : (do let w ← pop; let v ← pop; k w v : Exec F α) s = .ok (a, s')) :
    ∃ st v w, s.stack = st ++ [v, w] ∧ k w v { s with stack := st } = .ok (a, s') := by
  obtain ⟨w, s₁, hpop, h⟩ := bind_ok h
  obtain ⟨hw, rfl⟩ := pop_ok hpop
  obtain ⟨v, s₂, hpop', h⟩ := bind_ok h
  obtain ⟨hv, rfl⟩ := pop_ok hpop'
  refine ⟨s.stack.dropLast.dropLast, v, w, ?_, h⟩
  calc s.stack = s.stack.dropLast ++ [w] := getLast?_eq hw
    _ = s.stack.dropLast.dropLast ++ [v] ++ [w] := by rw [← getLast?_eq hv]
    _ = s.stack.dropLast.dropLast ++ [v, w] := List.append_assoc _ _ _

theorem pushTriple_ok {low high : Value F} {flag : Int} {u : Unit}
    (h : pushTriple env low high flag s = .ok (u, s')) :
    s'.stack = s.stack ++ [low, high, intOf env flag] := by
  obtain ⟨_, s₁, h₁, h⟩ := bind_ok h
  obtain ⟨_, s₂, h₂, h⟩ := bind_ok h
  rw [push_ok h, push_ok h₂, push_ok h₁]
  simp only [List.append_assoc, List.cons_append, List.nil_append]

/-- What an instruction leaves in place of its operands. -/
theorem stack_of_replaced {V : Type} {st pre vs new : List V} {q : ℕ} (hst : st = pre ++ vs)
    (hr : Replaced vs.length q st new) (hb : SameBelow (st.length - vs.length) st new) :
    ∃ ws : List V, new = pre ++ ws ∧ ws.length = q := by
  subst hst
  have hlen : (pre ++ vs).length - vs.length = pre.length := by
    rw [List.length_append, Nat.add_sub_cancel]
  rw [hlen] at hb
  have hpre : new.take pre.length = pre := hb.trans List.take_left
  refine ⟨new.drop pre.length, ?_, ?_⟩
  · conv_lhs => rw [← List.take_append_drop pre.length new, hpre]
  · rw [List.length_drop, hr.length, hlen, Nat.add_sub_cancel_left]

/-- **The table says what the machine does.** -/
theorem execOp_quick {f : CallFrame} (hq : op.isQuick = true)
    (h : execOp env f.chunkIdx f.base op s = .ok ((), s')) :
    Quick env f.chunkIdx f.base op s.stack s'.stack := by
  cases op with
  | const idx =>
    rw [push_ok h]
    exact .const idx _
  | getLocal slot =>
    obtain ⟨v, s₁, hread, h⟩ := bind_ok h
    rw [readLocal_apply] at hread
    split at hread
    next w hw =>
      cases hread
      rw [push_ok h]
      exact .getLocal hw
    · cases hread
  | setLocal slot =>
    obtain ⟨v, hv, hlt, rfl⟩ := execOp_setLocal h
    have hlen : f.base + slot < s.stack.dropLast.length := by
      rw [List.length_dropLast]
      exact hlt
    have hstack : Quick env f.chunkIdx f.base (.setLocal slot) _ _ := .setLocal v hlen
    rwa [← getLast?_eq hv] at hstack
  | cmpGe =>
    obtain ⟨hr, hb, -⟩ := execOp_ok (f := f) (by exact trivial) h
    obtain ⟨st, v, w, hst, h⟩ := pop_pop_ok h
    obtain ⟨ws, hws, hlen⟩ := stack_of_replaced hst hr hb
    obtain ⟨r, rfl⟩ := List.length_eq_one_iff.mp hlen
    rw [hst, hws]
    refine .cmpGe st ?_
    rintro x y rfl rfl
    rw [push_ok h] at hws
    exact (List.singleton_inj.mp (List.append_cancel_left hws)).symm
  | checkedAdd =>
    obtain ⟨hr, hb, -⟩ := execOp_ok (f := f) (by exact trivial) h
    obtain ⟨st, v, w, hst, h⟩ := pop_pop_ok h
    obtain ⟨ws, hws, hlen⟩ := stack_of_replaced hst hr hb
    obtain ⟨low, high, flag, rfl⟩ := List.length_eq_three.mp hlen
    rw [hst, hws]
    refine .checkedAdd st ?_
    rintro x y rfl rfl
    rw [pushTriple_ok h] at hws
    exact (List.cons.inj (List.append_cancel_left hws)).1.symm
  | popN n =>
    obtain ⟨hr, hb, -⟩ := execOp_ok (f := f) (by exact trivial) h
    have hle : n ≤ s.stack.length := hr.enough
    have hvs : (s.stack.drop (s.stack.length - n)).length = n := by
      rw [List.length_drop]
      omega
    have hst := (List.take_append_drop (s.stack.length - n) s.stack).symm
    have hlen : s'.stack.length ≤ s.stack.length - n := by
      have hlen := hr.length
      rw [show (Op.popN n).results env = opProduces (.popN n) from rfl, opProduces_popN,
        opRequires_popN] at hlen
      exact hlen.le
    have hnew : s'.stack = s.stack.take (s.stack.length - n) :=
      (List.take_of_length_le hlen).symm.trans hb
    have hstack : Quick env f.chunkIdx f.base _ _ _ :=
      .popN (s.stack.take (s.stack.length - n)) (s.stack.drop (s.stack.length - n))
    rwa [← hst, hvs, ← hnew] at hstack
  | _ => cases hq

end Keleusma
