import Keleusma.Control.Passes
import Keleusma.Verify.Structure

/-!
# Bounds of loops

The compiler opens a for-range loop with a test of its induction variable against a limit, both of
which it has set from constants, or from the length of a literal array, before the loop. The
verifier reads the number of passes off such a loop (`extractLoopIterationBound`), after it has
checked that the body steps the variable forward once, at its end, and sets the limit nowhere.
-/

namespace Keleusma

open Saturating (u32Max)

def i64Max : ℤ := 2 ^ 63 - 1

/-- The length of the literal array that a local was last set to before a position. -/
def traceLiteralArrayLength (chunk : Chunk) : ℕ → ℕ → Option ℤ
  | 0, _ | 1, _ => none
  | ip + 2, slot =>
    if chunk.ops[ip + 1]? = some (.setLocal slot) then
      match chunk.ops[ip]? with
      | some (.newComposite o) => if o.kind = .array then some o.count else none
      | some (.getLocal other) => traceLiteralArrayLength chunk ip other
      | _ => none
    else traceLiteralArrayLength chunk (ip + 1) slot

/-- The integer that a local was last set to before a position. -/
def traceConstSetLocal (chunk : Chunk) : ℕ → ℕ → Option ℤ
  | 0, _ | 1, _ => none
  | ip + 2, slot =>
    if chunk.ops[ip + 1]? = some (.setLocal slot) then
      match chunk.ops[ip]? with
      | some (.const idx) =>
        match chunk.constants[idx]? with
        | some (.int n) => some n
        | _ => none
      | some .len =>
        if 1 ≤ ip then
          match chunk.ops[ip - 1]? with
          | some (.getLocal arr) => traceLiteralArrayLength chunk (ip - 1) arr
          | _ => none
        else none
      | _ => none
    else traceConstSetLocal chunk (ip + 1) slot

/-- Whether the last five instructions of a body add a positive constant to a local. -/
def advancesAtTail (chunk : Chunk) (endloop var : ℕ) : Bool :=
  match (chunk.ops.drop (endloop - 5)).take 5 with
  | [.getLocal g, .const c, .checkedAdd, .popN 2, .setLocal s] =>
    g == var && s == var &&
      match chunk.constants[c]? with
      | some (.int n) => decide (0 < n)
      | _ => false
  | _ => false

/-- Whether the body of a loop steps its variable forward once, at its end, and does not set the
limit. -/
def loopBodyAdvancesInduction (chunk : Chunk) (loopIp var limit : ℕ) : Bool :=
  match chunk.ops[loopIp]? with
  | some (.loop exit) =>
    if exit = 0 ∨ chunk.ops.length < exit then false
    else
      match chunk.ops[exit - 1]? with
      | some (.endLoop _) =>
        let body := loopIp + loopHeader
        if exit - 1 < 5 ∨ exit - 1 - 5 < body then false
        else
          let inner := (chunk.ops.drop body).take (exit - 1 - body)
          !(inner.contains (.setLocal limit)) && inner.count (.setLocal var) == 1 &&
            advancesAtTail chunk (exit - 1) var
      | _ => false
  | _ => false

/-- The number of passes between two integers. -/
def rangeCount (start limit : ℤ) : Option ℕ :=
  if start ≤ limit then
    if i64Max < limit - start ∨ (u32Max : ℤ) < limit - start then none
    else some (limit - start).toNat
  else some 0

/-- The number of passes of a for-range loop. -/
def extractLoopIterationBound (chunk : Chunk) (loopIp : ℕ) : Option ℕ :=
  if chunk.ops.length ≤ loopIp + 4 then none
  else
    match chunk.ops[loopIp + 1]?, chunk.ops[loopIp + 2]?, chunk.ops[loopIp + 3]?,
      chunk.ops[loopIp + 4]? with
    | some (.getLocal var), some (.getLocal limit), some .cmpGe, some (.breakIf _) => do
      let stop ← traceConstSetLocal chunk loopIp limit
      let start ← traceConstSetLocal chunk loopIp var
      if loopBodyAdvancesInduction chunk loopIp var limit then rangeCount start stop else none
    | _, _, _, _ => none

variable {chunk : Chunk} {loopIp n : ℕ}

theorem loopBodyAdvancesInduction_room {var limit m : ℕ}
    (h : loopBodyAdvancesInduction chunk loopIp var limit = true)
    (hloop : chunk.ops[loopIp]? = some (.loop (m + 1))) : loopIp + loopHeader < m := by
  unfold loopBodyAdvancesInduction at h
  rw [hloop] at h
  simp only [Nat.add_sub_cancel] at h
  split at h
  · cases h
  split at h
  · split at h
    · cases h
    · unfold loopHeader at *
      omega
  · cases h

/-- **The shape of a loop whose number of passes can be read off.** -/
theorem extractLoopIterationBound_shape {m : ℕ}
    (h : extractLoopIterationBound chunk loopIp = some n)
    (hloop : chunk.ops[loopIp]? = some (.loop (m + 1))) :
    TestAt chunk.ops loopIp ∧ loopIp + loopHeader < m ∧ n ≤ u32Max := by
  unfold extractLoopIterationBound at h
  split at h
  · cases h
  split at h
  next var limit k h₁ h₂ h₃ h₄ =>
    obtain ⟨stop, -, h⟩ := Option.bind_eq_some_iff.mp h
    obtain ⟨start, -, h⟩ := Option.bind_eq_some_iff.mp h
    split at h
    next hadv =>
      refine ⟨⟨⟨var, h₁⟩, ⟨limit, h₂⟩, h₃, k, h₄⟩, loopBodyAdvancesInduction_room hadv hloop, ?_⟩
      unfold rangeCount at h
      split_ifs at h with hle hbig
      · obtain rfl := Option.some.inj h
        omega
      · obtain rfl := Option.some.inj h
        exact Nat.zero_le _
    · cases h
  · cases h

end Keleusma
