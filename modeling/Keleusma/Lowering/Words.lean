import Keleusma.Lowering.Simulation

/-!
# Words as bit vectors

A word of the runtime is a bit vector of its width, held as the signed integer it denotes. On a
runtime of the width that the module declares, the instructions on words are the operations on bit
vectors.
-/

namespace Keleusma

open Word

section Words

variable {k : ℕ}

theorem wrap_eq (k : ℕ) (n : Int) : wrap k n = (BitVec.ofInt (bits k) n).toInt := by
  rw [BitVec.toInt_ofInt, wrap]

/-- A constant that was cut to a larger width is the same word. -/
theorem ofInt_wrap {j : ℕ} (hle : k ≤ j) (n : Int) :
    BitVec.ofInt (bits k) (wrap j n) = BitVec.ofInt (bits k) n := by
  have hdvd : 2 ^ bits k ∣ 2 ^ bits j :=
    Nat.pow_dvd_pow 2 (Nat.pow_le_pow_right Nat.two_pos hle)
  apply BitVec.eq_of_toInt_eq
  rw [BitVec.toInt_ofInt, BitVec.toInt_ofInt, wrap, Int.bmod_bmod_of_dvd hdvd]

theorem toUnsigned_toInt (x : BitVec (bits k)) : toUnsigned k x.toInt = x.toNat := by
  have hpow : ((2 : Int) ^ bits k) = ((2 ^ bits k : ℕ) : Int) := by simp
  rw [toUnsigned, hpow, ← BitVec.toNat_ofInt, BitVec.ofInt_toInt]

theorem bitwise_and (x y : BitVec (bits k)) :
    bitwise k (· &&& ·) x.toInt y.toInt = (x &&& y).toInt := by
  rw [bitwise, toUnsigned_toInt, toUnsigned_toInt, wrap_eq, BitVec.ofInt_natCast,
    ← BitVec.toNat_and, BitVec.ofNat_toNat, BitVec.setWidth_eq]

theorem bits_dvd (k : ℕ) : bits k ∣ 2 ^ bits k :=
  Nat.pow_dvd_pow 2 (Nat.le_of_lt Nat.lt_two_pow_self)

theorem shiftCount_toInt (x : BitVec (bits k)) : shiftCount k x.toInt = x.toNat % bits k := by
  have hmod : x.toInt % (bits k : Int) = (x.toNat : Int) % (bits k : Int) := by
    rw [BitVec.toInt_eq_toNat_bmod, ← Int.emod_emod_of_dvd _ (Int.natCast_dvd_natCast.mpr
      (bits_dvd k)), Int.bmod_emod, Int.emod_emod_of_dvd _ (Int.natCast_dvd_natCast.mpr
      (bits_dvd k))]
  rw [shiftCount, hmod]
  exact Int.toNat_natCast _

theorem wrap_shl (x : BitVec (bits k)) (s : ℕ) : wrap k (x.toInt * 2 ^ s) = (x <<< s).toInt := by
  rw [wrap, BitVec.toInt_shiftLeft, BitVec.toInt_eq_toNat_bmod, Int.bmod_mul_bmod,
    Nat.shiftLeft_eq]
  simp

theorem wrap_shr (x : BitVec (bits k)) (s : ℕ) :
    wrap k (shiftRight x.toInt s) = (x.sshiftRight s).toInt := by
  have hpow : ((2 : Int) ^ s) = ((2 ^ s : ℕ) : Int) := by simp
  rw [wrap_eq, shiftRight, hpow, ← Int.shiftRight_eq_div_pow, ← BitVec.sshiftRight_eq]

/-- The low half of a checked operation at the declared width is the wrapped result. -/
theorem checked_low (k : ℕ) (r : Int) :
    (checkedArithOutputs k k r).1 = (BitVec.ofInt (bits k) r).toInt := by
  rw [← wrap_eq]
  simp only [checkedArithOutputs]
  split_ifs
  · simp [wrap]
  · simp [wrap]

end Words

/-! ## Instructions on words -/

section Instructions

variable {F : Type} {env : Env F} {σ : Site F} {vm : Vm F} {l : ℕ → Value F} {os : List (Value F)}

/-- The width of the runtime's words. -/
abbrev Env.wordBits (env : Env F) : ℕ := bits env.runtimeBitsLog2

/-- A word as a value. -/
def Env.word (env : Env F) (x : BitVec env.wordBits) : Value F := .int x.toInt

variable {x y : BitVec env.wordBits}

namespace OpRuns

theorem constWord {idx : ℕ} {n : Int} (hσ : σ.Roomy env) (hroom : os.length < σ.room)
    (h : IntConst env σ idx n) : OpRuns env σ (.const idx) ⟨vm, l, os⟩
      ⟨vm, l, env.word (BitVec.ofInt _ n) :: os⟩ := by
  rw [Env.word, ← wrap_eq]
  exact const hσ hroom h

theorem shlWord (hσ : σ.Roomy env) (hroom : os.length < σ.room) :
    OpRuns env σ .shl ⟨vm, l, env.word y :: env.word x :: os⟩
      ⟨vm, l, env.word (x <<< (y.toNat % env.wordBits)) :: os⟩ := by
  rw [Env.word, Env.word, Env.word, ← wrap_shl, ← shiftCount_toInt]
  exact shl hσ hroom

theorem shrWord (hσ : σ.Roomy env) (hroom : os.length < σ.room) :
    OpRuns env σ .shr ⟨vm, l, env.word y :: env.word x :: os⟩
      ⟨vm, l, env.word (x.sshiftRight (y.toNat % env.wordBits)) :: os⟩ := by
  rw [Env.word, Env.word, Env.word, ← wrap_shr, ← shiftCount_toInt]
  exact shr hσ hroom

theorem andWord (hσ : σ.Roomy env) (hroom : os.length < σ.room) :
    OpRuns env σ .bitAnd ⟨vm, l, env.word y :: env.word x :: os⟩
      ⟨vm, l, env.word (x &&& y) :: os⟩ := by
  rw [Env.word, Env.word, Env.word, ← bitwise_and]
  exact bitAnd hσ hroom

theorem cmpEqWord (hσ : σ.Roomy env) (hroom : os.length < σ.room) :
    OpRuns env σ .cmpEq ⟨vm, l, env.word y :: env.word x :: os⟩ ⟨vm, l, .bool (x == y) :: os⟩ := by
  have hbeq : (x == y) = (x.toInt == y.toInt) := by
    rw [Bool.eq_iff_iff, beq_iff_eq, beq_iff_eq, BitVec.toInt_inj]
  rw [hbeq]
  exact cmpEq hσ hroom

theorem byteToWordZext {b : UInt8} (hσ : σ.Roomy env) (hroom : os.length < σ.room) :
    OpRuns env σ .byteToWord ⟨vm, l, .byte b :: os⟩
      ⟨vm, l, env.word (BitVec.ofNat _ b.toNat) :: os⟩ := by
  have hword : env.word (BitVec.ofNat env.wordBits b.toNat) = intOf env b.toNat := by
    rw [Env.word, intOf, wrap_eq, BitVec.ofInt_natCast]
  rw [hword]
  exact byteToWord hσ hroom

theorem wordToByteLow (hmin : 3 ≤ env.runtimeBitsLog2) (hσ : σ.Roomy env)
    (hroom : os.length < σ.room) :
    OpRuns env σ .wordToByte ⟨vm, l, env.word x :: os⟩
      ⟨vm, l, .byte (UInt8.ofNat x.toNat) :: os⟩ := by
  have hdvd : 256 ∣ 2 ^ env.wordBits := by
    have height : 2 ^ 3 ≤ env.wordBits := Nat.pow_le_pow_right Nat.two_pos hmin
    exact Nat.pow_dvd_pow 2 height
  have hmod : (x.toInt % 256).toNat = x.toNat % 256 := by
    obtain ⟨d, hd⟩ := hdvd
    rw [BitVec.toInt_eq_toNat_cond, hd]
    split_ifs
    · omega
    · omega
  have hlow : UInt8.ofNat x.toNat = UInt8.ofNat (x.toInt % 256).toNat := by
    rw [hmod]
    apply UInt8.toNat_inj.mp
    simp
  rw [hlow]
  exact wordToByte hσ hroom

end OpRuns

/-- **The low half of a checked difference** at the declared width. -/
theorem Straight.subLow (hσ : σ.Roomy env) (hroom : os.length + 2 < σ.room)
    (hdecl : env.module.wordBitsLog2 = env.runtimeBitsLog2) :
    Straight env σ [.checkedSub, .popN 2] ⟨vm, l, env.word y :: env.word x :: os⟩
      ⟨vm, l, env.word (x - y) :: os⟩ := by
  have hlow : (checkedArithOutputs env.runtimeBitsLog2 env.module.wordBitsLog2
      (x.toInt - y.toInt)).1 = (x - y).toInt := by
    rw [hdecl, checked_low, BitVec.toInt_ofInt, BitVec.toInt_sub]
  refine .cons (.checkedSub hσ hroom) (.cons ?_ .nil)
  rw [Env.word, ← hlow]
  exact .popN [_, _] rfl

end Instructions

end Keleusma
