import Mathlib.Data.BitVec
import Mathlib.Data.Finset.Card
import Mathlib.Data.List.Basic

/-!
# Correction of single faults

Two ways to correct a fault. The bitwise majority of three copies is the original wherever no two
copies fail at the same bit (`majority_eq`). The syndrome of a word is the sum of the columns at
its set bits, so a flipped bit changes it by its own column (`syndrome_flip`), and distinct columns
locate it.
-/

namespace ErrorCorrection

variable {w : ℕ}

/-! ## Majority -/

/-- The bitwise majority. -/
def majority (a b c : BitVec w) : BitVec w := (a &&& b) ||| (a &&& c) ||| (b &&& c)

/-- At every bit at most one of the three copies differs from the original. -/
def Outvoted (v a b c : BitVec w) : Prop :=
  ∀ k < w, a.getLsbD k = v.getLsbD k ∧ b.getLsbD k = v.getLsbD k ∨
    a.getLsbD k = v.getLsbD k ∧ c.getLsbD k = v.getLsbD k ∨
    b.getLsbD k = v.getLsbD k ∧ c.getLsbD k = v.getLsbD k

theorem Outvoted.refl (v : BitVec w) : Outvoted v v v v := fun _ _ => .inl ⟨rfl, rfl⟩

/-- **The majority repairs** every fault that is outvoted. -/
theorem majority_eq {v a b c : BitVec w} (h : Outvoted v a b c) : majority a b c = v := by
  apply BitVec.eq_of_getLsbD_eq
  intro k hk
  simp only [majority, BitVec.getLsbD_or, BitVec.getLsbD_and]
  rcases h k hk with ⟨h₁, h₂⟩ | ⟨h₁, h₂⟩ | ⟨h₁, h₂⟩
  · rw [h₁, h₂]
    cases v.getLsbD k <;> cases c.getLsbD k <;> rfl
  · rw [h₁, h₂]
    cases v.getLsbD k <;> cases b.getLsbD k <;> rfl
  · rw [h₁, h₂]
    cases v.getLsbD k <;> cases a.getLsbD k <;> rfl

@[simp] theorem majority_self (v : BitVec w) : majority v v v = v := majority_eq (.refl v)

/-! ## Flipped bits -/

theorem getLsbD_flip (x : BitVec w) {i : ℕ} (hi : i < w) (j : ℕ) :
    (x ^^^ (1#w <<< i)).getLsbD j = if j = i then !x.getLsbD j else x.getLsbD j := by
  rw [← BitVec.twoPow_eq, BitVec.getLsbD_xor, BitVec.getLsbD_twoPow]
  split_ifs with h
  · simp [h, hi]
  · simp [Ne.symm h]

/-- A word that differs from another in one bit. -/
theorem eq_flip {x y : BitVec w} {i : ℕ} (hi : i < w) (hne : y.getLsbD i ≠ x.getLsbD i)
    (hother : ∀ j < w, j ≠ i → y.getLsbD j = x.getLsbD j) : y = x ^^^ (1#w <<< i) := by
  apply BitVec.eq_of_getLsbD_eq
  intro j hj
  rw [getLsbD_flip x hi]
  split_ifs with h
  · subst h
    exact Bool.eq_not_of_ne hne
  · exact hother j hj h

/-! ## Syndromes -/

/-- The sum of the columns at the set bits. -/
def syndrome : List (BitVec w) → (ℕ → Bool) → BitVec w
  | [], _ => 0#w
  | c :: cols, bit => (if bit 0 then c else 0#w) ^^^ syndrome cols fun i => bit (i + 1)

theorem syndrome_congr {cols : List (BitVec w)} {bit bit' : ℕ → Bool}
    (h : ∀ i < cols.length, bit i = bit' i) : syndrome cols bit = syndrome cols bit' := by
  induction cols generalizing bit bit' with
  | nil => rfl
  | cons c cols ih =>
    have htail := ih fun i hi => h (i + 1) (Nat.succ_lt_succ hi)
    rw [syndrome, syndrome, h 0 (Nat.succ_pos _), htail]

/-- **A flipped bit changes the syndrome by its column.** -/
theorem syndrome_flip {cols : List (BitVec w)} {bit bit' : ℕ → Bool} {i : ℕ} {c : BitVec w}
    (hc : cols[i]? = some c) (hi : bit' i = !bit i) (hother : ∀ j, j ≠ i → bit' j = bit j) :
    syndrome cols bit' = syndrome cols bit ^^^ c := by
  induction cols generalizing bit bit' i with
  | nil => simp at hc
  | cons d cols ih =>
    cases i with
    | zero =>
      obtain rfl := Option.some.inj hc
      have htail : syndrome cols (fun j => bit' (j + 1)) = syndrome cols fun j => bit (j + 1) :=
        syndrome_congr fun j _ => hother (j + 1) j.succ_ne_zero
      rw [syndrome, syndrome, htail, hi]
      cases bit 0
      · simp [BitVec.xor_comm]
      · simp [BitVec.xor_comm, ← BitVec.xor_assoc d d]
    | succ i =>
      have htail : syndrome cols (fun j => bit' (j + 1)) =
          (syndrome cols fun j => bit (j + 1)) ^^^ c :=
        ih hc hi fun j hj => hother (j + 1) fun h => hj (Nat.succ.inj h)
      rw [syndrome, syndrome, htail, hother 0 i.succ_ne_zero.symm, BitVec.xor_assoc]

/-- The syndrome as a loop over the positions. -/
theorem foldl_eq_syndrome (cols : List (BitVec w)) (bit : ℕ → Bool) (s : BitVec w) :
    (List.range cols.length).foldl (fun s i => if bit i then s ^^^ cols.getD i 0#w else s) s =
      s ^^^ syndrome cols bit := by
  induction cols generalizing bit s with
  | nil => simp [syndrome]
  | cons c cols ih =>
    rw [List.length_cons, List.range_succ_eq_map, List.foldl_cons, List.foldl_map, syndrome,
      ← BitVec.xor_assoc]
    have h := ih (fun i => bit (i + 1)) (s ^^^ if bit 0 then c else 0#w)
    rw [← h]
    cases bit 0
    · simp
    · simp

/-! ## Weights -/

/-- The number of set bits. -/
def weight (x : BitVec w) : ℕ := ((Finset.range w).filter fun i => x.getLsbD i = true).card

theorem weight_eq_zero {x : BitVec w} : weight x = 0 ↔ x = 0#w := by
  rw [weight, Finset.card_eq_zero, Finset.filter_eq_empty_iff]
  constructor
  · intro h
    apply BitVec.eq_of_getLsbD_eq
    intro i hi
    simpa using h (Finset.mem_range.mpr hi)
  · rintro rfl i -
    simp

/-- A set bit can be cleared. -/
theorem weight_succ {x : BitVec w} {n : ℕ} (h : weight x = n + 1) :
    ∃ i < w, x.getLsbD i = true ∧ weight (x ^^^ (1#w <<< i)) = n := by
  have hpos : 0 < weight x := by omega
  obtain ⟨i, hmem⟩ := Finset.card_pos.mp hpos
  obtain ⟨hi, hbit⟩ := Finset.mem_filter.mp hmem
  have hi := Finset.mem_range.mp hi
  have herase : (Finset.range w).filter (fun j => (x ^^^ (1#w <<< i)).getLsbD j = true) =
      ((Finset.range w).filter fun j => x.getLsbD j = true).erase i := by
    ext j
    rw [Finset.mem_filter, Finset.mem_erase, Finset.mem_filter, getLsbD_flip x hi]
    by_cases hj : j = i
    · subst hj
      simp [hbit]
    · simp [hj]
  refine ⟨i, hi, hbit, ?_⟩
  rw [weight, herase, Finset.card_erase_of_mem hmem]
  exact Nat.sub_eq_of_eq_add h

/-- One set bit. -/
theorem weight_eq_one {x : BitVec w} (h : weight x = 1) : ∃ i < w, x = 1#w <<< i := by
  obtain ⟨i, hi, -, hrest⟩ := weight_succ h
  exact ⟨i, hi, BitVec.xor_eq_zero_iff.mp (weight_eq_zero.mp hrest)⟩

/-- Two set bits. -/
theorem weight_eq_two {x : BitVec w} (h : weight x = 2) :
    ∃ i < w, ∃ j < w, i ≠ j ∧ x = (1#w <<< i) ^^^ (1#w <<< j) := by
  obtain ⟨i, hi, hbit, hrest⟩ := weight_succ h
  obtain ⟨j, hj, hone⟩ := weight_eq_one hrest
  refine ⟨i, hi, j, hj, ?_, ?_⟩
  · rintro rfl
    have hcleared := congrArg (·.getLsbD i) hone
    simp only [getLsbD_flip x hi, if_true, hbit] at hcleared
    simp [hi] at hcleared
  · rw [← hone, BitVec.xor_comm, BitVec.xor_assoc, BitVec.xor_self, BitVec.xor_zero]

theorem weight_single {i : ℕ} (hi : i < w) : weight (1#w <<< i) = 1 := by
  have hset : (Finset.range w).filter (fun j => (1#w <<< i).getLsbD j = true) = {i} := by
    ext j
    rw [← BitVec.twoPow_eq, Finset.mem_filter, BitVec.getLsbD_twoPow, Finset.mem_singleton]
    constructor
    · rintro ⟨-, h⟩
      simp only [Bool.and_eq_true, decide_eq_true_eq] at h
      exact h.2.symm
    · rintro rfl
      simp [hi]
  rw [weight, hset, Finset.card_singleton]

/-- The parity of a sum. -/
theorem countP_xor (p q : ℕ → Bool) (l : List ℕ) :
    (l.countP fun i => p i ^^ q i) % 2 = (l.countP p + l.countP q) % 2 := by
  induction l with
  | nil => rfl
  | cons i l ih =>
    simp only [List.countP_cons]
    cases p i <;> cases q i <;> simp <;> omega

end ErrorCorrection
