import Keleusma.Safety.Monitor
import Mathlib.Tactic.Linarith
import Mathlib.Tactic.Ring

/-!
# Checked arithmetic across word widths

A module declares a word width; a runtime of the same or of a greater width executes it. The
checked operations on words compute the exact result and report it as a triple. At a runtime that
is wider than the module the high half is what the signed low half leaves of the result, at the
runtime that matches the module it is the arithmetic shift of the result. The two agree exactly
where the low half is not negative (`checked_triples_agree_iff`).
-/

namespace Keleusma

open Word

variable {F : Type} {env : Env F}

/-! ## Signed residues

A word of `n` bits is the signed residue of an integer modulo `2 ^ n`; `h` is half the modulus. -/

section Residue

variable {h : ℕ} {r : Int}

/-- The signed residue lies in the range of the word. -/
theorem bmod_mem (hh : 0 < h) (r : Int) :
    -(h : Int) ≤ r.bmod (2 * h) ∧ r.bmod (2 * h) < h := by
  have hlt := Int.bmod_lt (x := r) (show 0 < 2 * h by omega)
  have hle := Int.le_bmod (x := r) (show 0 < 2 * h by omega)
  omega

/-- A value in the range of the word is its own residue. -/
theorem bmod_eq_self (hlo : -(h : Int) ≤ r) (hhi : r < h) : r.bmod (2 * h) = r :=
  Int.bmod_eq_of_le_mul_two (by push_cast; omega) (by push_cast; omega)

/-- What the signed residue leaves is a multiple of the modulus. -/
theorem sub_bmod_div (hh : 0 < h) (r : Int) :
    (r - r.bmod (2 * h)) / ((2 * h : ℕ) : Int) = r.bdiv (2 * h) := by
  have hm : ((2 * h : ℕ) : Int) ≠ 0 := by omega
  rw [Int.bmod_eq_self_sub_mul_bdiv, sub_sub_cancel, Int.mul_ediv_cancel_left _ hm]

/-- The arithmetic shift is one less than the signed quotient where the residue is negative. -/
theorem div_eq_bdiv (hh : 0 < h) (r : Int) :
    r / ((2 * h : ℕ) : Int) = r.bdiv (2 * h) - if r.bmod (2 * h) < 0 then 1 else 0 := by
  obtain ⟨hlo, hhi⟩ := bmod_mem hh r
  have hr := Int.bmod_add_bdiv r (2 * h)
  have hpos : (0 : Int) < ((2 * h : ℕ) : Int) := by omega
  split_ifs with hneg
  · refine (Int.ediv_eq_iff_of_pos hpos).mpr ⟨?_, ?_⟩ <;> push_cast at * <;> nlinarith
  · refine (Int.ediv_eq_iff_of_pos hpos).mpr ⟨?_, ?_⟩ <;> push_cast at * <;> nlinarith

end Residue

/-! ## Words -/

/-- Half the number of words of a width. -/
def Word.half (bitsLog2 : ℕ) : ℕ := 2 ^ (bits bitsLog2 - 1)

theorem Word.half_pos (n : ℕ) : 0 < Word.half n := Nat.two_pow_pos _

theorem Word.two_mul_half (n : ℕ) : 2 * Word.half n = 2 ^ bits n := by
  have hb : 0 < bits n := Nat.two_pow_pos n
  rw [Word.half, ← Nat.pow_succ', Nat.succ_eq_add_one, Nat.sub_add_cancel hb]

theorem Word.wrap_eq (n : ℕ) (r : Int) : wrap n r = r.bmod (2 * Word.half n) := by
  rw [Word.two_mul_half, wrap]

theorem Word.min_eq (n : ℕ) : Word.min n = -(Word.half n : Int) := by
  rw [Word.min, Word.half]
  push_cast
  rfl

theorem Word.max_eq (n : ℕ) : Word.max n = (Word.half n : Int) - 1 := by
  rw [Word.max, Word.half]
  push_cast
  rfl

/-- The word can be represented at the width. -/
def Word.InRange (bitsLog2 : ℕ) (n : Int) : Prop := Word.min bitsLog2 ≤ n ∧ n ≤ Word.max bitsLog2

theorem Word.inRange_iff {n : ℕ} {r : Int} :
    Word.InRange n r ↔ -(Word.half n : Int) ≤ r ∧ r < Word.half n := by
  rw [Word.InRange, Word.min_eq, Word.max_eq]
  omega

/-- Widths grow with their logarithm. -/
theorem Word.half_le {b w : ℕ} (hbw : b ≤ w) : Word.half b ≤ Word.half w := by
  refine Nat.pow_le_pow_right (by decide) (Nat.sub_le_sub_right ?_ 1)
  exact Nat.pow_le_pow_right (by decide) hbw

/-- A word of a narrower width is unchanged by the wider one. -/
theorem Word.wrap_of_inRange {b w : ℕ} {r : Int} (hbw : b ≤ w) (hr : Word.InRange b r) :
    wrap w r = r := by
  rw [Word.inRange_iff] at hr
  have := Word.half_le hbw
  rw [Word.wrap_eq]
  exact bmod_eq_self (by omega) (by omega)

theorem Word.wrap_inRange (n : ℕ) (r : Int) : Word.InRange n (wrap n r) := by
  rw [Word.inRange_iff, Word.wrap_eq]
  exact bmod_mem (Word.half_pos n) r

/-- Truncation to a narrower width does not see the truncation to a wider one. -/
theorem Word.wrap_wrap {b w : ℕ} (hbw : b ≤ w) (r : Int) : wrap b (wrap w r) = wrap b r := by
  have hdvd : 2 ^ bits b ∣ 2 ^ bits w := Nat.pow_dvd_pow 2 (Nat.pow_le_pow_right (by decide) hbw)
  exact Int.bmod_bmod_of_dvd hdvd

/-! ## The triple of a checked operation -/

/-- The low half is the signed residue at the declared width. -/
theorem checkedArithOutputs_low {b w : ℕ} (hbw : b ≤ w) (hw : w ≤ 6) (r : Int) :
    (checkedArithOutputs w b r).1 = wrap b r := by
  show wrap w (if b < 6 then wrap b (wrap w r) else wrap w r) = wrap b r
  split_ifs with h
  · rw [Word.wrap_wrap hbw, Word.wrap_of_inRange hbw (Word.wrap_inRange b r)]
  · obtain rfl : b = w := by omega
    rw [Word.wrap_wrap le_rfl]

/-- The flag is clear exactly in the declared range. -/
theorem checkedArithOutputs_flag {b w : ℕ} (hbw : b ≤ w) (r : Int) :
    (checkedArithOutputs w b r).2.2 = rangeFlag (Word.min b) (Word.max b) r := by
  show rangeFlag (declaredMin w b) (declaredMax w b) r = _
  have hmin : declaredMin w b = Word.min b := by
    rw [declaredMin]
    split_ifs with h
    · rw [le_antisymm h hbw]
    · rfl
  have hmax : declaredMax w b = Word.max b := by
    rw [declaredMax]
    split_ifs with h
    · rw [le_antisymm h hbw]
    · rfl
  rw [hmin, hmax]

theorem rangeFlag_eq_zero {lo hi r : Int} : rangeFlag lo hi r = 0 ↔ lo ≤ r ∧ r ≤ hi := by
  rw [rangeFlag]
  split_ifs with h h'
  · exact ⟨fun _ => h, fun _ => rfl⟩
  · exact ⟨fun h₀ => absurd h₀ (by decide), fun h₀ => absurd h₀ h⟩
  · exact ⟨fun h₀ => absurd h₀ (by decide), fun h₀ => absurd h₀ h⟩

/-- The results the checked operations report: sums, differences and products of words. -/
def Word.Reportable (bitsLog2 : ℕ) (r : Int) : Prop :=
  -(Word.half bitsLog2 : Int) * Word.half bitsLog2 ≤ r ∧
    r ≤ (Word.half bitsLog2 : Int) * Word.half bitsLog2

/-- The signed quotient of a reportable result by the number of words is a word. -/
theorem Word.Reportable.bdiv_mem {b : ℕ} {r : Int} (hb : 3 ≤ b) (hr : Word.Reportable b r) :
    -(Word.half b : Int) < r.bdiv (2 * Word.half b) ∧ r.bdiv (2 * Word.half b) < Word.half b := by
  have hh : Word.half 3 ≤ Word.half b := Word.half_le hb
  have h3 : Word.half 3 = 128 := rfl
  have hr' := Int.bmod_add_bdiv r (2 * Word.half b)
  obtain ⟨hlo, hhi⟩ := bmod_mem (Word.half_pos b) r
  obtain ⟨h₁, h₂⟩ := hr
  push_cast at hr'
  constructor <;> nlinarith

/-- **The high half at a wider runtime** is the signed quotient of the result. -/
theorem checkedArithOutputs_high_wide {b w : ℕ} (hb : 3 ≤ b) (hbw : b < w) (hw : w ≤ 6) {r : Int}
    (hr : Word.Reportable b r) :
    (checkedArithOutputs w b r).2.1 = r.bdiv (2 * Word.half b) := by
  have hlow := checkedArithOutputs_low hbw.le hw r
  have hhigh : (checkedArithOutputs w b r).2.1 =
      wrap w (Word.shiftRight (r - (checkedArithOutputs w b r).1) (bits b)) := by
    show (if b < w then _ else _) = _
    rw [if_pos hbw]
    rfl
  have hdiv := sub_bmod_div (Word.half_pos b) r
  rw [hhigh, hlow, Word.wrap_eq b r, Word.shiftRight,
    show (2 : Int) ^ bits b = ((2 * Word.half b : ℕ) : Int) by rw [Word.two_mul_half]; push_cast; rfl,
    hdiv]
  obtain ⟨h₁, h₂⟩ := hr.bdiv_mem hb
  exact Word.wrap_of_inRange hbw.le (Word.inRange_iff.mpr ⟨h₁.le, h₂⟩)

/-- **The high half at the runtime of the declared width** is the arithmetic shift. -/
theorem checkedArithOutputs_high_exact {b : ℕ} (hb : 3 ≤ b) {r : Int} (hr : Word.Reportable b r) :
    (checkedArithOutputs b b r).2.1 =
      r.bdiv (2 * Word.half b) - if wrap b r < 0 then 1 else 0 := by
  have hhigh : (checkedArithOutputs b b r).2.1 = wrap b (Word.shiftRight r (bits b)) := by
    show (if b < b then _ else _) = _
    rw [if_neg (lt_irrefl b)]
  obtain ⟨h₁, h₂⟩ := hr.bdiv_mem hb
  rw [hhigh, Word.shiftRight, Word.wrap_eq b r,
    show (2 : Int) ^ bits b = ((2 * Word.half b : ℕ) : Int) by rw [Word.two_mul_half]; push_cast; rfl,
    div_eq_bdiv (Word.half_pos b)]
  refine Word.wrap_of_inRange le_rfl (Word.inRange_iff.mpr ?_)
  split_ifs <;> omega

/-! ## The instructions -/

/-- A checked operation on words, with the fraction bits that its encoding carries. -/
inductive CheckedOp
  | add | sub | mul (fracBits : ℕ) | neg | div (fracBits : ℕ)

namespace CheckedOp

def op : CheckedOp → Op
  | add => .checkedAdd
  | sub => .checkedSub
  | mul n => .checkedMul n
  | neg => .checkedNeg
  | div n => .checkedDiv n

/-- The operands on the stack; the negation takes the first one only. -/
def operands (x y : Int) : CheckedOp → List (Value F)
  | neg => [.int x]
  | _ => [.int x, .int y]

/-- The mathematical result; a division by zero has none. -/
def result (x y : Int) : CheckedOp → Option Int
  | add => some (x + y)
  | sub => some (x - y)
  | mul _ => some (x * y)
  | neg => some (-x)
  | div _ => if y = 0 then none else some (x.tdiv y)

/-- The operations on words of a width have reportable results. -/
theorem reportable {b : ℕ} (hb : 3 ≤ b) {x y r : Int} (hx : Word.InRange b x)
    (hy : Word.InRange b y) {o : CheckedOp} (h : o.result x y = some r) :
    Word.Reportable b r := by
  have hh : Word.half 3 ≤ Word.half b := Word.half_le hb
  have h3 : Word.half 3 = 128 := rfl
  rw [Word.inRange_iff] at hx hy
  obtain ⟨hx₁, hx₂⟩ := hx
  obtain ⟨hy₁, hy₂⟩ := hy
  rw [Word.Reportable]
  cases o with
  | add | sub | neg =>
    cases h
    constructor <;> nlinarith
  | mul n =>
    cases h
    have h₁ := mul_nonneg (sub_nonneg.mpr hx₁) (sub_nonneg.mpr hy₁)
    constructor <;> nlinarith
  | div n =>
    rw [result] at h
    split_ifs at h with hy₀
    cases h
    have habs : (x.tdiv y).natAbs ≤ x.natAbs := by
      rw [Int.natAbs_tdiv]
      exact Nat.div_le_self _ _
    have hsq : (Word.half b : Int) ≤ Word.half b * Word.half b := by nlinarith
    rw [neg_mul]
    omega

end CheckedOp

/-- The environment with a runtime of another word width. -/
def Env.atWidth (env : Env F) (bitsLog2 : ℕ) : Env F := { env with runtimeBitsLog2 := bitsLog2 }

/-- The operand stack of the state has room for the three values of a triple. -/
def TripleRoom (env : Env F) (s : Vm F) : Prop :=
  ∀ n < 3, env.operandRoom (s.stack.length + n) = true

theorem pushTriple_apply (s : Vm F) (hroom : TripleRoom env s) (low high : Value F) (flag : Int) :
    pushTriple env low high flag s =
      .ok ((), { s with stack := s.stack ++ [low, high, intOf env flag] }) := by
  have h₀ := hroom 0 (by decide)
  have h₁ := hroom 1 (by decide)
  have h₂ := hroom 2 (by decide)
  simp only [pushTriple, bind, StateT.bind, Except.bind, push_apply, List.length_append,
    List.length_singleton, List.append_assoc, List.cons_append, List.nil_append, h₁,
    if_pos (show env.operandRoom s.stack.length = true from h₀), if_true]
  exact if_pos h₂

/-- The execution of a checked operation reports its result, or a zero divisor. -/
theorem execOp_checked (o : CheckedOp) (x y : Int) (s : Vm F) (chunkIdx base : ℕ) :
    execOp env chunkIdx base o.op { s with stack := s.stack ++ o.operands x y } =
      (match o.result x y with
        | some r => pushChecked env r
        | none => pushTriple env (.int x) (.int 0) 3) s := by
  have htwo : ∀ {α : Type} (k : Value F → Value F → Exec F α),
      (do let b ← pop; let a ← pop; k b a)
        { s with stack := s.stack ++ [Value.int x, Value.int y] } = k (.int y) (.int x) s := by
    intro α k
    have hlast : (s.stack ++ [Value.int x, Value.int y]).getLast? = some (.int y) := by simp
    have hinit : (s.stack ++ [Value.int x, Value.int y]).dropLast = s.stack ++ [.int x] := by simp
    simp only [bind, StateT.bind, pop_apply, hlast, hinit, Except.bind, List.getLast?_append,
      List.getLast?_singleton, Option.some_or, List.dropLast_concat]
  cases o with
  | add | sub | mul n => exact htwo _
  | neg =>
    show (do let a ← pop; _ : Exec F Unit) { s with stack := s.stack ++ [.int x] } = _
    simp only [bind, StateT.bind, pop_apply, List.getLast?_append, List.getLast?_singleton,
      Option.some_or, List.dropLast_concat, Except.bind]
    rfl
  | div n =>
    refine (htwo _).trans ?_
    show (if y = 0 then _ else _ : Exec F Unit) s = _
    rw [CheckedOp.result]
    split_ifs <;> rfl

/-- Executing the operation with the operands on top of the stack leaves the triple there. -/
def Reports (env : Env F) (s : Vm F) (o : CheckedOp) (x y low high flag : Int) : Prop :=
  ∀ chunkIdx base, execOp env chunkIdx base o.op { s with stack := s.stack ++ o.operands x y } =
    .ok ((), { s with stack := s.stack ++ [.int low, .int high, .int flag] })

/-- The triple the operation reports at a runtime width. -/
def CheckedOp.triple (w b : ℕ) (x y : Int) (o : CheckedOp) : Int × Int × Int :=
  match o.result x y with
  | some r => checkedArithOutputs w b r
  | none => (x, 0, 3)

/-- The flags are words of every width. -/
theorem CheckedOp.triple_flag {w b : ℕ} (hw : 3 ≤ w) (x y : Int) (o : CheckedOp) :
    wrap w (o.triple w b x y).2.2 = (o.triple w b x y).2.2 := by
  have hflag : 0 ≤ (o.triple w b x y).2.2 ∧ (o.triple w b x y).2.2 ≤ 3 := by
    rw [CheckedOp.triple]
    cases o.result x y with
    | none => exact ⟨show (0 : Int) ≤ 3 by decide, le_rfl⟩
    | some r =>
      show 0 ≤ rangeFlag _ _ r ∧ rangeFlag _ _ r ≤ 3
      rw [rangeFlag]
      split_ifs <;> decide
  have hh : Word.half 3 ≤ Word.half w := Word.half_le hw
  have h3 : Word.half 3 = 128 := rfl
  exact Word.wrap_of_inRange le_rfl (Word.inRange_iff.mpr ⟨by omega, by omega⟩)

/-- Each runtime reports its triple, and no other. -/
theorem reports_iff {s : Vm F} (hroom : TripleRoom env s) (hw : 3 ≤ env.runtimeBitsLog2)
    {o : CheckedOp} {x y low high flag : Int} :
    Reports env s o x y low high flag ↔
      o.triple env.runtimeBitsLog2 env.module.wordBitsLog2 x y = (low, high, flag) := by
  have hrun : ∀ chunkIdx base,
      execOp env chunkIdx base o.op { s with stack := s.stack ++ o.operands x y } =
        .ok ((), { s with stack := s.stack ++
          [.int (o.triple env.runtimeBitsLog2 env.module.wordBitsLog2 x y).1,
            .int (o.triple env.runtimeBitsLog2 env.module.wordBitsLog2 x y).2.1,
            .int (o.triple env.runtimeBitsLog2 env.module.wordBitsLog2 x y).2.2] }) := by
    intro chunkIdx base
    have hflag := o.triple_flag (b := env.module.wordBitsLog2) hw x y
    rw [execOp_checked, ← hflag, CheckedOp.triple]
    cases o.result x y with
    | none => exact pushTriple_apply s hroom _ _ _
    | some r => exact pushTriple_apply s hroom _ _ _
  constructor
  · intro h
    have heq := (hrun 0 0).symm.trans (h 0 0)
    simp only [Except.ok.injEq, Prod.mk.injEq, true_and, Vm.mk.injEq, List.append_cancel_left_eq,
      List.cons.injEq, Value.int.injEq, and_true] at heq
    exact Prod.ext heq.1 (Prod.ext heq.2.1 heq.2.2)
  · intro h chunkIdx base
    rw [hrun, h]

/-- **Width independence**: the operation reports the same triple on the two runtimes; the flag
is clear exactly where the declared width holds the result, and the halves make up the result. -/
def WidthIndependent (env : Env F) (w : ℕ) (s : Vm F) (o : CheckedOp) (x y : Int) : Prop :=
  ∃ low high flag, Reports (env.atWidth w) s o x y low high flag ∧
    Reports (env.atWidth env.module.wordBitsLog2) s o x y low high flag ∧
    ∀ r, o.result x y = some r → (flag ≠ 0 ↔ ¬ Word.InRange env.module.wordBitsLog2 r) ∧
      high * 2 ^ bits env.module.wordBitsLog2 + low = r ∧ low = wrap env.module.wordBitsLog2 r

/-- **The triples of the two runtimes agree exactly where the low half is not negative**: a
checked operation on words is independent of the runtime's width, and its halves make up its
result, if and only if the result has no residue with the declared sign bit set. -/
theorem checked_triples_agree_iff {w : ℕ} {s : Vm F} {o : CheckedOp} {x y : Int}
    (hb : 3 ≤ env.module.wordBitsLog2) (hbw : env.module.wordBitsLog2 ≤ w) (hw : w ≤ 6)
    (hroom : TripleRoom env s) (hx : Word.InRange env.module.wordBitsLog2 x)
    (hy : Word.InRange env.module.wordBitsLog2 y) :
    WidthIndependent env w s o x y ↔ ∀ r, o.result x y = some r →
      r % 2 ^ bits env.module.wordBitsLog2 < 2 ^ (bits env.module.wordBitsLog2 - 1) := by
  set b := env.module.wordBitsLog2
  have hM : (2 : Int) ^ bits b = ((2 * Word.half b : ℕ) : Int) := by
    rw [Word.two_mul_half]
    push_cast
    rfl
  have hH : (2 : Int) ^ (bits b - 1) = (Word.half b : Int) := by
    rw [Word.half]
    push_cast
    rfl
  -- The condition says that the low half has its sign bit clear.
  have hsign : ∀ r : Int, r % 2 ^ bits b < 2 ^ (bits b - 1) ↔ 0 ≤ wrap b r := by
    intro r
    have hpos := Word.half_pos b
    have h₀ := Int.emod_nonneg r (show ((2 * Word.half b : ℕ) : Int) ≠ 0 by omega)
    rw [hM, hH, Word.wrap_eq, Int.bmod_eq_emod]
    have h₁ := Int.emod_lt_of_pos r (show (0 : Int) < ((2 * Word.half b : ℕ) : Int) by omega)
    split_ifs <;> omega
  have hreports : ∀ {v : ℕ} {low high flag : Int}, 3 ≤ v →
      (Reports (env.atWidth v) s o x y low high flag ↔ o.triple v b x y = (low, high, flag)) :=
    fun {v _ _ _} hv => @reports_iff F (env.atWidth v) s hroom hv o x y _ _ _
  have hparts : ∀ r : Int, wrap b r + ((2 * Word.half b : ℕ) : Int) * r.bdiv (2 * Word.half b) = r :=
    fun r => by rw [Word.wrap_eq]; exact Int.bmod_add_bdiv r (2 * Word.half b)
  constructor
  · rintro ⟨low, high, flag, -, hexact, hprops⟩ r hr
    rw [hreports hb, CheckedOp.triple, hr] at hexact
    change checkedArithOutputs b b r = (low, high, flag) at hexact
    have hhigh := checkedArithOutputs_high_exact hb (CheckedOp.reportable hb hx hy hr)
    have hlow := checkedArithOutputs_low (le_refl b) (hbw.trans hw) r
    rw [hexact] at hhigh hlow
    obtain ⟨-, hsum, -⟩ := hprops r hr
    rw [hsign]
    by_contra hneg
    -- A negative residue makes the arithmetic shift one too small.
    rw [if_pos (not_le.mp hneg)] at hhigh
    have hr' := hparts r
    have hpos := Word.half_pos b
    simp only at hhigh hlow
    rw [hhigh, hlow, hM, sub_mul, one_mul, mul_comm (r.bdiv _)] at hsum
    omega
  · intro hcond
    have hsame : o.triple w b x y = o.triple b b x y := by
      rw [CheckedOp.triple, CheckedOp.triple]
      cases hr : o.result x y with
      | none => rfl
      | some r =>
        have hrep := CheckedOp.reportable hb hx hy hr
        refine Prod.ext ?_ (Prod.ext ?_ ?_)
        · exact (checkedArithOutputs_low hbw hw r).trans
            (checkedArithOutputs_low le_rfl (hbw.trans hw) r).symm
        · rcases hbw.eq_or_lt with rfl | hlt
          · rfl
          · exact (checkedArithOutputs_high_wide hb hlt hw hrep).trans (by
              rw [checkedArithOutputs_high_exact hb hrep,
                if_neg (not_lt.mpr ((hsign r).mp (hcond r hr))), sub_zero])
        · exact (checkedArithOutputs_flag hbw r).trans (checkedArithOutputs_flag le_rfl r).symm
    refine ⟨(o.triple b b x y).1, (o.triple b b x y).2.1, (o.triple b b x y).2.2,
      (hreports (hb.trans hbw)).mpr hsame, (hreports hb).mpr rfl, fun r hr => ?_⟩
    have hrep := CheckedOp.reportable hb hx hy hr
    rw [CheckedOp.triple, hr]
    have hlow := checkedArithOutputs_low (le_refl b) (hbw.trans hw) r
    refine ⟨?_, ?_, hlow⟩
    · show (checkedArithOutputs b b r).2.2 ≠ 0 ↔ _
      rw [checkedArithOutputs_flag le_rfl, Ne, rangeFlag_eq_zero]
      rfl
    · show (checkedArithOutputs b b r).2.1 * 2 ^ bits b + (checkedArithOutputs b b r).1 = r
      rw [checkedArithOutputs_high_exact hb hrep, hlow,
        if_neg (not_lt.mpr ((hsign r).mp (hcond r hr))), sub_zero, hM]
      exact (by ring : _ = _).trans (hparts r)

/-! ## An 8-bit module on two runtimes -/

/-- A module of 8-bit words that adds a constant to itself. -/
def doubled (n : Int) : Module :=
  { plainModule [{ plainChunk [.const 0, .const 0, .checkedAdd, .popN 2, .return] .func 0 0 with
      constants := [.int n] }] with wordBitsLog2 := 3 }

theorem freshVm_tripleRoom (m : Module) : TripleRoom (plainEnv m) freshVm := fun _ _ => rfl

/-- Twice fifty is reported alike on the 8-bit and the 64-bit runtime. -/
theorem doubled_agrees : verify (doubled 50) = .ok () ∧
    WidthIndependent (plainEnv (doubled 50)) 6 freshVm .add 50 50 :=
  ⟨rfl, (checked_triples_agree_iff (by decide) (by decide) (by decide) (freshVm_tripleRoom _)
    ⟨by decide, by decide⟩ ⟨by decide, by decide⟩).mpr fun r hr => by cases hr; decide⟩

/-- **The runtimes disagree on twice a hundred**: its low half is `-56`, and the high half is `1`
on the 64-bit runtime and `0` on the 8-bit one. -/
theorem doubled_disagrees : verify (doubled 100) = .ok () ∧
    ¬WidthIndependent (plainEnv (doubled 100)) 6 freshVm .add 100 100 := by
  refine ⟨rfl, ?_⟩
  rintro ⟨low, high, flag, hwide, hexact, -⟩
  have hroom : ∀ v, TripleRoom ((plainEnv (doubled 100)).atWidth v) freshVm := fun _ _ _ => rfl
  rw [reports_iff (hroom 6) (by decide)] at hwide
  rw [reports_iff (hroom _) (by decide)] at hexact
  have h₆ : CheckedOp.add.triple 6 3 100 100 = (-56, 1, 1) := by decide +kernel
  have h₃ : CheckedOp.add.triple 3 3 100 100 = (-56, 0, 1) := by decide +kernel
  cases h₆.symm.trans (hwide.trans (hexact.symm.trans h₃))

end Keleusma
