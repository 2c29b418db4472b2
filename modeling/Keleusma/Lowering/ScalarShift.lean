import Keleusma.Logic.Outcomes
import Keleusma.Lowering.Words
import Keleusma.Safety.Monitor

/-!
# Scalar shifts

The lowering of the shift operators on `Word` and `Byte` values. The amount is a literal below the
width of the value, or an expression whose value is masked to the word width at run time. The
machine has an arithmetic right shift only; the logical one masks the bits that the arithmetic one
filled in.
-/

namespace Keleusma

open Lower Outcomes

/-! ## The lowering -/

/-- The shift operators. -/
inductive ShiftOp
  | shl | aShl | shrA | shrL
  deriving DecidableEq, Repr

/-- The right operand of a shift: the integer literal it is, if it is one, and its code. -/
structure ShiftAmount where
  literal : Option Int
  code : Lower Unit

/-- The literal amount, if it is one. -/
def classifyShiftAmount (right : ShiftAmount) (maxBits : Int) : Except String (Option Int) :=
  match right.literal with
  | some k =>
    if k < 0 ∨ maxBits ≤ k then
      .error s!"shift amount {k} is out of range [0, {maxBits}) for the value width"
    else .ok (some k)
  | none => .ok none

/-- A shift by a literal of the word on the stack. -/
def compileScalarShiftConst (op : ShiftOp) (k wordBits : Int) : Lower Unit := do
  let kConst ← addConstant k
  emit (.const kConst)
  match op with
  | .shl | .aShl => emit .shl
  | .shrA => emit .shr
  | .shrL =>
    emit .shr
    let mask ← addConstant (Word.wrap 6 (2 ^ (wordBits - k).toNat - 1))
    emit (.const mask)
    emit .bitAnd

/-- A shift by the value of an expression of the word on the stack. -/
def compileScalarShiftVariable (op : ShiftOp) (right : Lower Unit) (wordBits : Int) :
    Lower Unit :=
  match op with
  | .shl | .aShl => do
    right
    emit .shl
  | .shrA => do
    right
    emit .shr
  | .shrL => do
    let lv ← declareLocal
    emit (.setLocal lv)
    right
    let lc ← declareLocal
    emit (.setLocal lc)
    let zeroConst ← addConstant 0
    let oneConst ← addConstant 1
    let wbConst ← addConstant wordBits
    -- A count of zero leaves the value as it is.
    emitAll [.getLocal lc, .const zeroConst, .cmpEq]
    ifElse (emit (.getLocal lv))
      (emitAll [.getLocal lv, .getLocal lc, .shr, .const oneConst, .const wbConst, .getLocal lc,
        .checkedSub, .popN 2, .shl, .const oneConst, .checkedSub, .popN 2, .bitAnd])

/-- A shift of a `Word`, or of a `Byte` that is promoted to a word and truncated again. -/
def compileScalarShift (wordBytes : ℕ) (isByte : Bool) (op : ShiftOp) (left : Lower Unit)
    (right : ShiftAmount) : Except String (Lower Unit) := do
  let wordBits : Int := wordBytes * 8
  let valueBits := if isByte then 8 else wordBits
  let amount ← classifyShiftAmount right valueBits
  return do
    left
    emitAll (if isByte then [.byteToWord] else [])
    amount.elim (compileScalarShiftVariable op right.code wordBits)
      fun k => compileScalarShiftConst op k wordBits
    emitAll (if isByte then [.wordToByte] else [])

/-! ## Shifts of words -/

/-- The shift that an operator denotes. -/
def ShiftOp.shift {w : ℕ} (op : ShiftOp) (x : BitVec w) (s : ℕ) : BitVec w :=
  match op with
  | .shl | .aShl => x <<< s
  | .shrA => x.sshiftRight s
  | .shrL => x >>> s

/-- The mask of the low bits, as the machine computes it. -/
theorem shl_one_sub_one {w s : ℕ} (hs : s < w) :
    (1#w <<< s) - 1#w = BitVec.ofNat w (2 ^ s - 1) := by
  have hlt : 2 ^ s < 2 ^ w := Nat.pow_lt_pow_right Nat.one_lt_two hs
  have hone : 1 < 2 ^ w := by
    have := Nat.one_le_two_pow (n := s)
    omega
  apply BitVec.eq_of_toNat_eq
  rw [BitVec.toNat_sub, BitVec.toNat_shiftLeft, BitVec.toNat_ofNat, BitVec.toNat_ofNat,
    Nat.mod_eq_of_lt hone, Nat.one_shiftLeft, Nat.mod_eq_of_lt hlt]
  have := Nat.one_le_two_pow (n := s)
  rw [show 2 ^ w - 1 + 2 ^ s = 2 ^ w + (2 ^ s - 1) by omega, Nat.add_mod_left]

/-- **The synthesised logical shift**: the arithmetic shift with the filled bits masked. -/
theorem sshiftRight_and_mask {w : ℕ} (x : BitVec w) (s : ℕ) :
    x.sshiftRight s &&& BitVec.ofNat w (2 ^ (w - s) - 1) = x >>> s := by
  apply BitVec.eq_of_getLsbD_eq
  intro i hi
  rw [BitVec.getLsbD_and, BitVec.getLsbD_sshiftRight, BitVec.getLsbD_ofNat,
    Nat.testBit_two_pow_sub_one, BitVec.getLsbD_ushiftRight]
  by_cases hin : s + i < w
  · have hmask : i < w - s := by omega
    have hnot : ¬ w ≤ i := by omega
    simp [hi, hin, hmask, hnot]
  · have hmask : ¬ i < w - s := by omega
    simp [hi, hmask, BitVec.getLsbD_of_ge x (s + i) (by omega)]

/-- What the variable lowering of the logical shift computes for a count other than zero. -/
def maskedShift {w : ℕ} (x c : BitVec w) : BitVec w :=
  x.sshiftRight (c.toNat % w) &&&
    ((1#w <<< ((BitVec.ofInt w w - c).toNat % w)) - 1#w)

/-- **Where the masked count is zero nothing is left.** -/
theorem maskedShift_eq {k : ℕ} (x c : BitVec (Word.bits k)) :
    maskedShift x c = if c.toNat % Word.bits k = 0 then 0#_ else x >>> (c.toNat % Word.bits k) := by
  have hpos : 0 < Word.bits k := Nat.two_pow_pos k
  have hwlt : Word.bits k < 2 ^ Word.bits k := Nat.lt_two_pow_self
  have hcount : (BitVec.ofInt (Word.bits k) (Word.bits k) - c).toNat % Word.bits k =
      (Word.bits k - c.toNat % Word.bits k) % Word.bits k := by
    have hc := c.isLt
    rw [BitVec.toNat_sub, BitVec.ofInt_natCast, BitVec.toNat_ofNat, Nat.mod_eq_of_lt hwlt,
      Nat.mod_mod_of_dvd _ (bits_dvd k)]
    obtain ⟨d, hd⟩ := bits_dvd k
    have hsplit := Nat.div_add_mod c.toNat (Word.bits k)
    have hlt := Nat.mod_lt c.toNat hpos
    have hmul := Nat.mul_sub (Word.bits k) d (c.toNat / Word.bits k)
    have hquot : Word.bits k * (c.toNat / Word.bits k) < Word.bits k * d := by omega
    have hsum : 2 ^ Word.bits k - c.toNat + Word.bits k = Word.bits k - c.toNat % Word.bits k +
        Word.bits k * (d - c.toNat / Word.bits k) := by omega
    rw [hsum, Nat.add_mul_mod_self_left]
  rw [maskedShift, hcount]
  split_ifs with hzero
  · simp [hzero]
  · have hlt := Nat.mod_lt c.toNat hpos
    rw [Nat.mod_eq_of_lt (by omega : Word.bits k - c.toNat % Word.bits k < Word.bits k),
      shl_one_sub_one (by omega), sshiftRight_and_mask]

/-- What the variable lowering computes. -/
def variableShift {w : ℕ} (op : ShiftOp) (x c : BitVec w) : BitVec w :=
  match op with
  | .shrL => if c = 0 then x else maskedShift x c
  | op => op.shift x (c.toNat % w)

theorem classifyShiftAmount_ok {right : ShiftAmount} {maxBits : Int} {amount : Option Int}
    (h : classifyShiftAmount right maxBits = .ok amount) :
    amount = right.literal ∧ ∀ k, right.literal = some k → 0 ≤ k ∧ k < maxBits := by
  unfold classifyShiftAmount at h
  split at h
  next k hk =>
    split_ifs at h with hrange
    cases h
    refine ⟨hk.symm, fun j hj => ?_⟩
    obtain rfl : k = j := Option.some.inj (hk.symm.trans hj)
    omega
  next hnone =>
    cases h
    exact ⟨hnone.symm, fun k hk => by rw [hnone] at hk; cases hk⟩

/-- What the lowering computes on the word on the stack. -/
def ShiftAmount.shift {w : ℕ} (right : ShiftAmount) (op : ShiftOp) (x c : BitVec w) : BitVec w :=
  match right.literal with
  | some _ => op.shift x (c.toNat % w)
  | none => variableShift op x c

/-- **Only the logical shift by the value of an expression differs**, where the count is a multiple
of the width other than zero. -/
theorem shift_eq {k : ℕ} (right : ShiftAmount) (op : ShiftOp) (x c : BitVec (Word.bits k)) :
    right.shift op x c = if op = .shrL ∧ right.literal = none ∧ c ≠ 0 ∧
      c.toNat % Word.bits k = 0 then 0 else op.shift x (c.toNat % Word.bits k) := by
  cases hright : right.literal with
  | some k => simp [ShiftAmount.shift, hright]
  | none =>
    cases op with
    | shrL =>
      by_cases hc : c = 0
      · simp [ShiftAmount.shift, hright, variableShift, hc, ShiftOp.shift]
      · have hc' : ¬c = 0#(Word.bits k) := hc
        simp [ShiftAmount.shift, hright, variableShift, hc', maskedShift_eq, ShiftOp.shift]
    | _ => simp [ShiftAmount.shift, hright, variableShift]

/-! ## Values -/

/-- A value that is shifted. -/
inductive Shifted (w : ℕ)
  | word (x : BitVec w)
  | byte (b : UInt8)

namespace Shifted

variable {w : ℕ}

def isByte : Shifted w → Bool
  | word _ => false
  | byte _ => true

/-- The word that is shifted; a byte is extended by zeros. -/
def toWord : Shifted w → BitVec w
  | word x => x
  | byte b => BitVec.ofNat w b.toNat

def toValue {F : Type} (env : Env F) : Shifted env.wordBits → Value F
  | word x => env.word x
  | byte b => .byte b

/-- The result for a shifted word; a byte keeps the low eight bits. -/
def result {F : Type} (env : Env F) (v : Shifted env.wordBits) (r : BitVec env.wordBits) :
    Value F :=
  match v with
  | word _ => env.word r
  | byte _ => .byte (UInt8.ofNat r.toNat)

end Shifted

/-! ## Running the lowering -/

section Running

variable {F : Type} {env : Env F} {σ : Site F} {vm vm' : Vm F} {l l' : ℕ → Value F}
  {os : List (Value F)} {fc fc' : FuncCompiler} {right : Lower Unit} {x c : BitVec env.wordBits}

/-- A shift instruction after the code of the count. -/
theorem sim_shift_emit {op : Op} {y : BitVec env.wordBits} (hext : fc.Extends fc')
    (hl : ∀ i < fc.nextSlot, l' i = l i)
    (hright : Evaluates env σ right fc vm l (os.length + 1) (env.word c) vm')
    (hop : ∀ l'', OpRuns env σ op ⟨vm', l'', env.word c :: env.word x :: os⟩
      ⟨vm', l'', env.word y :: os⟩) :
    Sim env σ (do right; emit op) fc' ⟨vm, l', env.word x :: os⟩ fun _ _ x' =>
      x'.vm = vm' ∧ x'.operands = env.word y :: os ∧ ∀ i < fc'.nextSlot, x'.slots i = l' i := by
  refine .bind (hright.runs fc' l' _ hext hl le_rfl) ?_
  rintro _ fc₁ ⟨vm₁, l₁, os₁⟩ - ⟨hvm, hos, hslots⟩
  dsimp only at hvm hos hslots
  subst hvm hos
  refine (Sim.emit (hop l₁)).mono ?_
  rintro _ fc₂ x' ⟨rfl, -⟩
  exact ⟨rfl, rfl, hslots⟩

/-- The logical shift by the value of an expression. -/
theorem sim_shrL_variable (hσ : σ.Roomy env)
    (hdecl : env.module.wordBitsLog2 = env.runtimeBitsLog2) (hroom : os.length + 4 < σ.room)
    (hext : fc.Extends fc') (hl : ∀ i < fc.nextSlot, l' i = l i)
    (hright : Evaluates env σ right fc vm l (os.length + 1) (env.word c) vm') :
    Sim env σ (compileScalarShiftVariable .shrL right env.wordBits) fc'
      ⟨vm, l', env.word x :: os⟩ fun _ _ x' =>
        x'.vm = vm' ∧ x'.operands = env.word (variableShift .shrL x c) :: os ∧
          ∀ i < fc'.nextSlot, x'.slots i = l' i := by
  refine .bind .declareLocal ?_
  rintro lv fc₁ - hext₁ ⟨rfl, hlv, hnext₁, hlvCount⟩
  refine .bind (.emit (.setLocal (env.word x) hlvCount)) ?_
  rintro - fc₂ - hext₂ ⟨rfl, hnext₂⟩
  have hl₁ : ∀ i < fc.nextSlot, Function.update l' lv (env.word x) i = l i := by
    intro i hi
    have hlt := hext.slots
    rw [Function.update_of_ne (by omega), hl i hi]
  refine .bind (hright.runs fc₂ _ os ((hext.trans hext₁).trans hext₂) hl₁ (Nat.le_succ _)) ?_
  rintro - fc₃ ⟨vm₃, l₃, os₃⟩ hext₃ ⟨hvm, hos, hl₃⟩
  dsimp only at hvm hos hl₃
  subst hvm hos
  refine .bind .declareLocal ?_
  rintro lc fc₄ - - ⟨rfl, hlc, -, hlcCount⟩
  refine .bind (.emit (.setLocal (env.word c) hlcCount)) ?_
  rintro - fc₅ - - ⟨rfl, -⟩
  refine .bind (.addConstant 0) ?_
  rintro zeroConst fc₆ - - ⟨rfl, -, hzero⟩
  refine .bind (.addConstant 1) ?_
  rintro oneConst fc₇ - - ⟨rfl, -, hone⟩
  refine .bind (.addConstant env.wordBits) ?_
  rintro wbConst fc₈ - - ⟨rfl, -, hwb⟩
  have hlvlc : lv < lc := by
    have := hext₃.slots
    omega
  obtain ⟨l₄, hl₄⟩ : ∃ l₄, l₄ = Function.update l₃ lc (env.word c) := ⟨_, rfl⟩
  have hgetLc : l₄ lc = env.word c := by simp [hl₄]
  have hgetLv : l₄ lv = env.word x := by
    rw [hl₄, Function.update_of_ne (by omega), hl₃ lv (by omega), Function.update_self]
  have hkept : ∀ i < fc'.nextSlot, l₄ i = l' i := by
    intro i hi
    rw [hl₄, Function.update_of_ne (by omega), hl₃ i (by omega), Function.update_of_ne (by omega)]
  rw [← hl₄]
  have hloadLc {os' : List (Value F)} (hos' : os'.length < σ.room) :
      OpRuns env σ (.getLocal lc) ⟨vm₃, l₄, os'⟩ ⟨vm₃, l₄, env.word c :: os'⟩ := by
    rw [← hgetLc]
    exact .getLocal hσ hos' hlcCount
  have hloadLv {os' : List (Value F)} (hos' : os'.length < σ.room) :
      OpRuns env σ (.getLocal lv) ⟨vm₃, l₄, os'⟩ ⟨vm₃, l₄, env.word x :: os'⟩ := by
    rw [← hgetLv]
    exact .getLocal hσ hos' hlvCount
  refine .bind (.emitAll (.cons (hloadLc (by omega)) (.cons (.constWord hσ (by simp; omega) hzero)
    (.cons (.cmpEqWord hσ (by omega)) .nil)))) ?_
  rintro - fc₉ - - ⟨rfl, -⟩
  refine .ifElse (fun hcond => ?_) (fun hcond fc₁₀ _ => ?_)
  · have hc : c = 0 := by simpa using hcond
    refine (Sim.emit (hloadLv (by omega))).mono ?_
    rintro - - x' ⟨rfl, -⟩
    exact ⟨rfl, by simp [variableShift, hc], hkept⟩
  · have hc : c ≠ 0 := by simpa using hcond
    have hresult : variableShift .shrL x c = maskedShift x c := if_neg hc
    have hshift : Straight env σ [.getLocal lv, .getLocal lc, .shr] ⟨vm₃, l₄, os⟩
        ⟨vm₃, l₄, env.word (x.sshiftRight (c.toNat % env.wordBits)) :: os⟩ :=
      .cons (hloadLv (by omega)) (.cons (hloadLc (by simp; omega))
        (.cons (.shrWord hσ (by omega)) .nil))
    obtain ⟨filled, hfilled⟩ : ∃ y, y = x.sshiftRight (c.toNat % env.wordBits) := ⟨_, rfl⟩
    rw [hresult, maskedShift, ← BitVec.ofInt_ofNat, ← hfilled]
    rw [← hfilled] at hshift
    obtain ⟨count, hcount⟩ : ∃ y, y = BitVec.ofInt env.wordBits env.wordBits - c := ⟨_, rfl⟩
    have hmask : Straight env σ [.const oneConst, .const wbConst, .getLocal lc, .checkedSub,
        .popN 2, .shl] ⟨vm₃, l₄, env.word filled :: os⟩
        ⟨vm₃, l₄, env.word (BitVec.ofInt _ 1 <<< (count.toNat % env.wordBits)) ::
          env.word filled :: os⟩ :=
      .cons (.constWord hσ (by simp; omega) hone) (.cons (.constWord hσ (by simp; omega) hwb)
        (.cons (hloadLc (by simp; omega))
          (.append (hcount ▸ Straight.subLow hσ (by simp; omega) hdecl)
            (.cons (.shlWord hσ (by simp; omega)) .nil))))
    have hand : Straight env σ [.const oneConst, .checkedSub, .popN 2, .bitAnd]
        ⟨vm₃, l₄, env.word (BitVec.ofInt _ 1 <<< (count.toNat % env.wordBits)) ::
          env.word filled :: os⟩
        ⟨vm₃, l₄, env.word (filled &&& ((BitVec.ofInt _ 1 <<< (count.toNat % env.wordBits)) -
          BitVec.ofInt _ 1)) :: os⟩ :=
      .cons (.constWord hσ (by simp; omega) hone)
        (.append (Straight.subLow hσ (by simp; omega) hdecl) (.cons (.andWord hσ (by omega)) .nil))
    rw [← hcount]
    refine (Sim.emitAll ((hshift.append hmask).append hand)).mono ?_
    rintro - - x' ⟨rfl, -⟩
    exact ⟨rfl, rfl, hkept⟩

/-- **A shift by the value of an expression.** -/
theorem sim_compileScalarShiftVariable (op : ShiftOp) (hσ : σ.Roomy env)
    (hdecl : env.module.wordBitsLog2 = env.runtimeBitsLog2) (hroom : os.length + 4 < σ.room)
    (hext : fc.Extends fc') (hl : ∀ i < fc.nextSlot, l' i = l i)
    (hright : Evaluates env σ right fc vm l (os.length + 1) (env.word c) vm') :
    Sim env σ (compileScalarShiftVariable op right env.wordBits) fc' ⟨vm, l', env.word x :: os⟩
      fun _ _ x' => x'.vm = vm' ∧ x'.operands = env.word (variableShift op x c) :: os ∧
        ∀ i < fc'.nextSlot, x'.slots i = l' i := by
  cases op
  case shl => exact sim_shift_emit hext hl hright fun _ => .shlWord hσ (by omega)
  case aShl => exact sim_shift_emit hext hl hright fun _ => .shlWord hσ (by omega)
  case shrA => exact sim_shift_emit hext hl hright fun _ => .shrWord hσ (by omega)
  case shrL => exact sim_shrL_variable hσ hdecl hroom hext hl hright

/-- The machine's arithmetic shift by a count below the width. -/
theorem toNat_ofInt_of_lt {k : Int} (hk : 0 ≤ k) (hlt : k < env.wordBits) :
    (BitVec.ofInt env.wordBits k).toNat = k.toNat := by
  have hpow : env.wordBits < 2 ^ env.wordBits := Nat.lt_two_pow_self
  obtain ⟨n, rfl⟩ := Int.eq_ofNat_of_zero_le hk
  rw [BitVec.ofInt_natCast, BitVec.toNat_ofNat]
  exact Nat.mod_eq_of_lt (by omega)

/-- The mask is cut to 64 bits when it is compiled, which no width exceeds. -/
theorem ofInt_wrap_mask (hmax : env.runtimeBitsLog2 ≤ 6) (s : ℕ) :
    BitVec.ofInt env.wordBits (Word.wrap 6 (2 ^ s - 1)) = BitVec.ofNat env.wordBits (2 ^ s - 1) :=
      by
  have hcast : ((2 : Int) ^ s - 1) = ((2 ^ s - 1 : ℕ) : Int) := by
    have := Nat.one_le_two_pow (n := s)
    push_cast [Nat.cast_sub this]
    rfl
  rw [Env.wordBits, ofInt_wrap hmax, hcast, BitVec.ofInt_natCast]

/-- **A shift by a literal below the width.** -/
theorem sim_compileScalarShiftConst (op : ShiftOp) {k : Int} (hσ : σ.Roomy env)
    (hmax : env.runtimeBitsLog2 ≤ 6) (hroom : os.length + 2 < σ.room) (hk : 0 ≤ k)
    (hlt : k < env.wordBits) :
    Sim env σ (compileScalarShiftConst op k env.wordBits) fc ⟨vm, l, env.word x :: os⟩
      fun _ _ x' => x'.vm = vm ∧
        x'.operands =
          env.word (op.shift x ((BitVec.ofInt env.wordBits k).toNat % env.wordBits)) :: os ∧
        x'.slots = l := by
  refine .bind (.addConstant k) ?_
  rintro kConst fc₁ - - ⟨rfl, -, hkConst⟩
  refine .bind (.emit (.constWord hσ (by simp; omega) hkConst)) ?_
  rintro - fc₂ - - ⟨rfl, -⟩
  cases op
  case shl =>
    refine (Sim.emit (.shlWord hσ (by omega))).mono ?_
    rintro - - - ⟨rfl, -⟩
    exact ⟨rfl, rfl, rfl⟩
  case aShl =>
    refine (Sim.emit (.shlWord hσ (by omega))).mono ?_
    rintro - - - ⟨rfl, -⟩
    exact ⟨rfl, rfl, rfl⟩
  case shrA =>
    refine (Sim.emit (.shrWord hσ (by omega))).mono ?_
    rintro - - - ⟨rfl, -⟩
    exact ⟨rfl, rfl, rfl⟩
  case shrL =>
    refine .bind (.emit (.shrWord hσ (by omega))) ?_
    rintro - fc₃ - - ⟨rfl, -⟩
    refine .bind (.addConstant _) ?_
    rintro mask fc₄ - - ⟨rfl, -, hmask⟩
    refine .bind (.emit (.constWord hσ (by simp; omega) hmask)) ?_
    rintro - fc₅ - - ⟨rfl, -⟩
    refine (Sim.emit (.andWord hσ (by omega))).mono ?_
    rintro - - - ⟨rfl, -⟩
    have hcount : (BitVec.ofInt env.wordBits k).toNat % env.wordBits = k.toNat := by
      rw [toNat_ofInt_of_lt hk hlt, Nat.mod_eq_of_lt (by omega)]
    have hwidth : (env.wordBits - k).toNat = env.wordBits - k.toNat := by omega
    rw [hcount, hwidth, ofInt_wrap_mask hmax, sshiftRight_and_mask]
    exact ⟨rfl, rfl, rfl⟩

/-- The amount has the value, and computing it leaves the rest of the machine as given. -/
def ShiftAmount.Denotes (env : Env F) (σ : Site F) (right : ShiftAmount) (fc : FuncCompiler)
    (vm : Vm F) (l : ℕ → Value F) (depth : ℕ) (c : BitVec env.wordBits) (vm' : Vm F) : Prop :=
  match right.literal with
  | some k => c = BitVec.ofInt _ k ∧ vm' = vm
  | none => Evaluates env σ right.code fc vm l depth (env.word c) vm'

variable {right : ShiftAmount} {left code : Lower Unit} {vm₁ vm₂ : Vm F} {wordBytes : ℕ}
  {v : Shifted env.wordBits}

/-- A byte is promoted to a word. -/
theorem straight_promote (hσ : σ.Roomy env) (hroom : os.length < σ.room) :
    Straight env σ (if v.isByte then [.byteToWord] else []) ⟨vm, l, v.toValue env :: os⟩
      ⟨vm, l, env.word v.toWord :: os⟩ := by
  cases v with
  | word x => exact .nil
  | byte b => exact .cons (.byteToWordZext hσ hroom) .nil

/-- The word is truncated to a byte again. -/
theorem straight_truncate (hσ : σ.Roomy env) (hmin : 3 ≤ env.runtimeBitsLog2)
    (hroom : os.length < σ.room) :
    Straight env σ (if v.isByte then [.wordToByte] else []) ⟨vm, l, env.word x :: os⟩
      ⟨vm, l, v.result env x :: os⟩ := by
  cases v with
  | word y => exact .nil
  | byte b => exact .cons (.wordToByteLow hmin hσ hroom) .nil

/-- The shift of the word on the stack. -/
theorem sim_amount (op : ShiftOp) (hσ : σ.Roomy env)
    (hdecl : env.module.wordBitsLog2 = env.runtimeBitsLog2) (hmax : env.runtimeBitsLog2 ≤ 6)
    (hroom : os.length + 4 < σ.room)
    (hrange : ∀ k, right.literal = some k → 0 ≤ k ∧ k < env.wordBits) (hext : fc.Extends fc')
    (hl : ∀ i < fc.nextSlot, l' i = l i)
    (hright : right.Denotes env σ fc vm₁ l (os.length + 1) c vm₂) :
    Sim env σ (right.literal.elim (compileScalarShiftVariable op right.code env.wordBits)
      fun k => compileScalarShiftConst op k env.wordBits) fc' ⟨vm₁, l', env.word x :: os⟩
        fun _ _ x' => x'.vm = vm₂ ∧ x'.operands = env.word (right.shift op x c) :: os ∧
          ∀ i < fc'.nextSlot, x'.slots i = l' i := by
  unfold ShiftAmount.Denotes at hright
  cases hliteral : right.literal with
  | none =>
    rw [hliteral] at hright
    have hshift : right.shift op x c = variableShift op x c := by simp [ShiftAmount.shift, hliteral]
    rw [hshift]
    exact sim_compileScalarShiftVariable op hσ hdecl hroom hext hl hright
  | some k =>
    rw [hliteral] at hright
    obtain ⟨rfl, rfl⟩ := hright
    obtain ⟨hk, hlt⟩ := hrange k hliteral
    have hshift : right.shift op x (BitVec.ofInt _ k) =
        op.shift x ((BitVec.ofInt env.wordBits k).toNat % env.wordBits) := by
      simp [ShiftAmount.shift, hliteral]
    rw [hshift]
    refine (sim_compileScalarShiftConst op hσ hmax (by omega) hk hlt).mono ?_
    rintro - - x' ⟨hvm, hos, hslots⟩
    exact ⟨hvm, hos, fun i _ => by rw [hslots]⟩

/-- **The code of a scalar shift.** -/
theorem sim_compileScalarShift (op : ShiftOp) (hσ : σ.Roomy env)
    (hdecl : env.module.wordBitsLog2 = env.runtimeBitsLog2) (hmin : 3 ≤ env.runtimeBitsLog2)
    (hmax : env.runtimeBitsLog2 ≤ 6) (hbytes : wordBytes * 8 = env.wordBits)
    (hroom : os.length + 4 < σ.room)
    (hleft : Evaluates env σ left fc vm l os.length (v.toValue env) vm₁)
    (hright : right.Denotes env σ fc vm₁ l (os.length + 1) c vm₂)
    (hcode : compileScalarShift wordBytes v.isByte op left right = .ok code) :
    Sim env σ code fc ⟨vm, l, os⟩ fun _ _ x' => x'.vm = vm₂ ∧
      x'.operands = v.result env (right.shift op v.toWord c) :: os ∧
        ∀ i < fc.nextSlot, x'.slots i = l i := by
  have hbits : (wordBytes : Int) * 8 = env.wordBits := by exact_mod_cast hbytes
  unfold compileScalarShift at hcode
  rw [hbits] at hcode
  obtain ⟨amount, hamount, hret⟩ := bind_eq_ok_iff.mp hcode
  cases hret
  obtain ⟨rfl, hrange⟩ := classifyShiftAmount_ok hamount
  have height : (8 : Int) ≤ env.wordBits := by
    have hpow : 2 ^ 3 ≤ env.wordBits := Nat.pow_le_pow_right Nat.two_pos hmin
    exact_mod_cast hpow
  have hrange' : ∀ k, right.literal = some k → 0 ≤ k ∧ k < env.wordBits := by
    intro k hk
    obtain ⟨hnonneg, hlt⟩ := hrange k hk
    refine ⟨hnonneg, hlt.trans_le ?_⟩
    split_ifs
    · exact height
    · exact le_rfl
  refine .bind (hleft.runs fc l os .rfl (fun _ _ => rfl) le_rfl) ?_
  rintro - fc₁ ⟨vm₁, l₁, os₁⟩ hext₁ ⟨rfl, hos, hl₁⟩
  dsimp only at hos hl₁
  subst hos
  refine .bind (.emitAll (straight_promote hσ (by omega))) ?_
  rintro - fc₂ - hext₂ ⟨rfl, -⟩
  refine .bind (sim_amount op hσ hdecl hmax hroom hrange' (hext₁.trans hext₂) hl₁ hright) ?_
  rintro - fc₃ ⟨vm₂, l₂, os₂⟩ - ⟨rfl, hos, hl₂⟩
  dsimp only at hos hl₂
  subst hos
  refine (Sim.emitAll (straight_truncate hσ hmin (by omega))).mono ?_
  rintro - - x' ⟨rfl, -⟩
  refine ⟨rfl, rfl, fun i hi => ?_⟩
  have hslots := (hext₁.trans hext₂).slots
  exact (hl₂ i (by omega)).trans (hl₁ i hi)

/-- The zero word differs from the value unless nothing but zeros is shifted. -/
theorem Shifted.result_zero_iff (hmin : 3 ≤ env.runtimeBitsLog2) (v : Shifted env.wordBits) :
    v.result env 0 = v.result env v.toWord ↔ v.toWord = 0 := by
  have hpow : 2 ^ 3 ≤ env.wordBits := Nat.pow_le_pow_right Nat.two_pos hmin
  have hwidth : 2 ^ 8 ≤ 2 ^ env.wordBits := Nat.pow_le_pow_right Nat.two_pos hpow
  cases v with
  | word x =>
    have hinj : env.word 0 = env.word x ↔ (0 : BitVec env.wordBits).toInt = x.toInt := by
      simp [Env.word]
    rw [result, result, toWord, hinj, BitVec.toInt_inj, eq_comm]
  | byte b =>
    have hb := b.toNat_lt
    have hlow : (BitVec.ofNat env.wordBits b.toNat).toNat = b.toNat := by
      rw [BitVec.toNat_ofNat]
      exact Nat.mod_eq_of_lt (by omega)
    have hzero : BitVec.ofNat env.wordBits b.toNat = 0 ↔ b = 0 := by
      rw [← BitVec.toNat_inj, hlow, ← UInt8.toNat_inj]
      simp
    simp only [result, toWord, hlow, hzero, Value.byte.injEq]
    simp [eq_comm]

/-- **A scalar shift computes the shift by the masked count** unless it is a logical right shift of
a value other than zero by the value of an expression that is a multiple of the width other than
zero. -/
theorem compileScalarShift_shifts_iff (op : ShiftOp) (hσ : σ.Roomy env)
    (hdecl : env.module.wordBitsLog2 = env.runtimeBitsLog2) (hmin : 3 ≤ env.runtimeBitsLog2)
    (hmax : env.runtimeBitsLog2 ≤ 6) (hbytes : wordBytes * 8 = env.wordBits)
    (hroom : os.length + 4 < σ.room)
    (hleft : Evaluates env σ left fc vm l os.length (v.toValue env) vm₁)
    (hright : right.Denotes env σ fc vm₁ l (os.length + 1) c vm₂)
    (hcode : compileScalarShift wordBytes v.isByte op left right = .ok code) :
    Sim env σ code fc ⟨vm, l, os⟩ fun _ _ x' => ∃ r, x'.vm = vm₂ ∧ x'.operands = r :: os ∧
      (∀ i < fc.nextSlot, x'.slots i = l i) ∧
      (r = v.result env (op.shift v.toWord (c.toNat % env.wordBits)) ↔
        ¬(op = .shrL ∧ right.literal = none ∧ c ≠ 0 ∧ c.toNat % env.wordBits = 0 ∧
          v.toWord ≠ 0)) := by
  refine (sim_compileScalarShift op hσ hdecl hmin hmax hbytes hroom hleft hright hcode).mono ?_
  rintro - - x' ⟨hvm, hos, hslots⟩
  refine ⟨_, hvm, hos, hslots, ?_⟩
  rw [shift_eq]
  split_ifs with hdiffers
  · obtain ⟨rfl, hnone, hc, hmod⟩ := hdiffers
    have hspec : ShiftOp.shrL.shift v.toWord (c.toNat % env.wordBits) = v.toWord := by
      rw [hmod]
      simp [ShiftOp.shift]
    have hcount : ¬c = BitVec.ofNat env.wordBits 0 := hc
    rw [hspec, Shifted.result_zero_iff hmin]
    simp [hnone, hcount, hmod]
  · exact iff_of_true rfl fun h => hdiffers ⟨h.1, h.2.1, h.2.2.1, h.2.2.2.1⟩

end Running

/-! ## Emitted code on a machine of its own

A machine whose only chunk is what a lowering has emitted. It stops where the code ends, so that
what the code leaves is determined. -/

namespace FuncCompiler

variable (fc : FuncCompiler)

/-- A 64-bit machine whose only chunk is what was emitted. -/
def machine : Env Unit :=
  plainEnv (plainModule [{ plainChunk fc.ops .func fc.nextSlot 0 with constants := fc.constants }])

/-- The only frame of that machine. -/
def site : Site Unit := ⟨0, [], [], 2 ^ 16⟩

theorem site_roomy : site.Roomy fc.machine := fun _ _ => rfl

theorem installed (lo : ℕ) (hops : fc.ops.length < 2 ^ 16)
    (hconstants : fc.constants.length ≤ 2 ^ 16) : Installed fc.machine site.chunk lo fc :=
  ⟨fun _ _ _ => rfl, ⟨_, rfl, List.prefix_rfl, hconstants⟩, le_rfl, hops⟩

variable {fc}

/-- Where the code ends, the machine stops. -/
theorem not_running (x : View Unit) (s : Vm Unit) :
    step fc.machine (x.state fc.machine site fc.ops.length) ≠ .ok (.running, s) := by
  have hend : (fc.machine.ops site.chunk)[fc.ops.length]? = none :=
    List.getElem?_eq_none (le_refl fc.ops.length)
  intro hstep
  simp only [step, bind, StateT.bind, get, getThe, MonadStateOf.get, StateT.get, pure, Except.pure,
    Except.bind, View.state, hend] at hstep
  cases hstep

theorem runs_end {x : View Unit} {s : Vm Unit}
    (h : Runs fc.machine (x.state fc.machine site fc.ops.length) s) :
    s = x.state fc.machine site fc.ops.length := by
  rcases Relation.ReflTransGen.cases_head h with hrefl | ⟨s', hstep, -⟩
  · exact hrefl.symm
  · exact absurd hstep (not_running x s')

/-- **The operands that the code leaves** are determined by where it starts. -/
theorem operands_unique {s : Vm Unit} {x y : View Unit}
    (hx : Runs fc.machine s (x.state fc.machine site fc.ops.length))
    (hy : Runs fc.machine s (y.state fc.machine site fc.ops.length)) :
    x.operands = y.operands := by
  have hdet : Relator.RightUnique fun s s' => step fc.machine s = .ok (.running, s') := by
    intro s₁ s₂ s₃ h₂ h₃
    simpa [h₂] using h₃
  have hstate : x.state fc.machine site fc.ops.length = y.state fc.machine site fc.ops.length := by
    rcases Relation.ReflTransGen.total_of_right_unique hdet hx hy with h | h
    · exact (runs_end h).symm
    · exact runs_end h
  have hstack := congrArg Vm.stack hstate
  simp only [View.state] at hstack
  have hreverse := (List.append_inj hstack (by simp)).2
  simpa using hreverse

end FuncCompiler

/-! ## Variables shifted by variables -/

/-- A function with two local variables, the value that is shifted and the count. -/
def twoLocals : FuncCompiler := ⟨[], [], 2⟩

/-- A logical shift of the one by the other. -/
def logicalShift : Lower Unit :=
  do
    emit (.getLocal 0)
    emitAll []
    compileScalarShiftVariable .shrL (emit (.getLocal 1)) 64
    emitAll []

theorem logicalShift_compiled :
    compileScalarShift 8 false .shrL (emit (.getLocal 0)) ⟨none, emit (.getLocal 1)⟩ =
      .ok logicalShift := rfl

/-- The machine that runs it. -/
def shiftMachine : Env Unit := (logicalShift.run twoLocals).2.machine

def wordSlots (x c : BitVec shiftMachine.wordBits) (slot : ℕ) : Value Unit :=
  if slot = 0 then shiftMachine.word x else shiftMachine.word c

theorem evaluates_value (x c : BitVec shiftMachine.wordBits) :
    Evaluates shiftMachine FuncCompiler.site (emit (.getLocal 0)) twoLocals freshVm
      (wordSlots x c) 0 (shiftMachine.word x) freshVm :=
  .variable (FuncCompiler.site_roomy _) Nat.two_pos (by decide) (by decide)

theorem evaluates_count (x c : BitVec shiftMachine.wordBits) :
    Evaluates shiftMachine FuncCompiler.site (emit (.getLocal 1)) twoLocals freshVm
      (wordSlots x c) 1 (shiftMachine.word c) freshVm :=
  .variable (FuncCompiler.site_roomy _) Nat.one_lt_two (by decide) (by decide)

theorem sim_logicalShift (x c : BitVec shiftMachine.wordBits) :
    Sim shiftMachine FuncCompiler.site logicalShift twoLocals ⟨freshVm, wordSlots x c, []⟩
      fun _ _ x' => x'.vm = freshVm ∧
        x'.operands = [shiftMachine.word (variableShift .shrL x c)] ∧
          ∀ i < 2, x'.slots i = wordSlots x c i :=
  @sim_compileScalarShift Unit shiftMachine FuncCompiler.site freshVm (wordSlots x c) [] twoLocals
    c ⟨none, emit (.getLocal 1)⟩ (emit (.getLocal 0)) logicalShift freshVm freshVm 8 (.word x)
    .shrL (FuncCompiler.site_roomy _) rfl (by decide) (by decide) rfl (by decide)
    (evaluates_value x c) (evaluates_count x c) logicalShift_compiled

/-- **Eight shifted by one.** -/
theorem eight_shifted : Sim shiftMachine FuncCompiler.site logicalShift twoLocals
    ⟨freshVm, wordSlots 8 1, []⟩ fun _ _ x' => x'.operands = [shiftMachine.word 4] := by
  have hsim := @compileScalarShift_shifts_iff Unit shiftMachine FuncCompiler.site freshVm
    (wordSlots 8 1) [] twoLocals 1 ⟨none, emit (.getLocal 1)⟩ (emit (.getLocal 0)) logicalShift
    freshVm freshVm 8 (.word 8) .shrL (FuncCompiler.site_roomy _) rfl (by decide) (by decide) rfl
    (by decide) (evaluates_value 8 1) (evaluates_count 8 1) logicalShift_compiled
  refine hsim.mono ?_
  rintro - - x' ⟨r, -, hos, -, hiff⟩
  rw [hos, hiff.mpr (fun h => absurd h.2.2.2.1 (by decide))]
  rfl

/-- **One shifted by 64** is not one, although the count is masked to the width of 64 bits. -/
theorem one_lost : ¬Sim shiftMachine FuncCompiler.site logicalShift twoLocals
    ⟨freshVm, wordSlots 1 64, []⟩ fun _ _ x' =>
      x'.operands = [shiftMachine.word (ShiftOp.shrL.shift 1 (64 % 64))] := by
  intro hsim
  have hinst : Installed shiftMachine 0 0 (logicalShift.run twoLocals).2 :=
    FuncCompiler.installed _ 0 (by decide) (by decide)
  obtain ⟨x, hruns, hos⟩ := hsim hinst
  obtain ⟨y, hruns', -, hos', -⟩ := sim_logicalShift 1 64 hinst
  have heq := FuncCompiler.operands_unique hruns hruns'
  rw [hos, hos'] at heq
  have hint : (ShiftOp.shrL.shift (1 : BitVec shiftMachine.wordBits) (64 % 64)).toInt =
      (variableShift .shrL (1 : BitVec shiftMachine.wordBits) 64).toInt := by
    simpa [Env.word] using heq
  revert hint
  decide

end Keleusma
