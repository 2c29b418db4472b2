import Keleusma.Wire.Layout

/-!
# The code of the parity planes

Eight check bits protect a word of 64 bits. The columns of the code are distinct and of odd
weight, so the syndrome of a single fault locates it: `decodeWord` repairs a flipped data bit
(`decodeWord_flip_data`) and recognises a flipped check bit (`decodeWord_flip_check`). The syndrome
of two faults is not zero and has even weight, so they are detected (`decodeReceived_flip_flip`).
-/

namespace KeleusmaWire

open Overflow

/-- The kind of the plane that protects a kind, by convention. -/
def planeKindFor (kind : BitVec 16) : BitVec 16 := kind ||| 0x8000

/-! ## Columns -/

/-- The number of one bits. -/
def countOnes (v : Byte) : ℕ := (List.range 8).countP fun i => v.getLsbD i

/-- The bytes of a weight, ascending. -/
def bytesOfWeight (n : ℕ) : List Byte :=
  ((List.range 256).map (BitVec.ofNat 8)).filter fun v => countOnes v = n

/-- The columns: 64 for the data bits and 8 for the check bits. -/
def columns : List Byte :=
  bytesOfWeight 3 ++ (bytesOfWeight 5).take 8 ++ (List.range 8).map fun i => 1#8 <<< i

theorem length_columns : columns.length = 72 := by decide +kernel

theorem columns_spec : ∀ i < 72, countOnes (columns.getD i 0#8) % 2 = 1 ∧
    columns.findIdx? (· == columns.getD i 0#8) = some i := by decide +kernel

theorem columns_check : ∀ j < 8, columns.getD (64 + j) 0#8 = 1#8 <<< j := by decide +kernel

/-! ## Words -/

/-- The check bits of a word. -/
def checkByte (data : BitVec 64) : Byte :=
  (List.range 64).foldl
    (fun s i => if (data >>> i) &&& 1#64 = 1#64 then s ^^^ columns.getD i 0#8 else s) 0#8

/-- What a check byte says about its word. -/
inductive WordStatus
  | clean (value : BitVec 64) | corrected (value : BitVec 64) | uncorrectable
  deriving DecidableEq, Repr

/-- Decode a word against its check bits. -/
def decodeWord (data : BitVec 64) (check : Byte) : WordStatus :=
  let syndrome := checkByte data ^^^ check
  if syndrome = 0#8 then .clean data
  else if countOnes syndrome % 2 = 1 then
    match columns.findIdx? (· == syndrome) with
    | some i => if i < 64 then .corrected (data ^^^ (1#64 <<< i)) else .corrected data
    | none => .uncorrectable
  else .uncorrectable

/-- What a scan of a region against its plane found. -/
structure EccReport where
  words : ℕ
  corrected : ℕ
  uncorrectable : ℕ
  deriving DecidableEq, Repr

/-- Decode one word of the data; the word must lie in the data and in the plane. -/
def planeWord (usizeBits : ℕ) (parity data : List Byte) (index : ℕ) : Option WordStatus := do
  let pos ← checkedMul usizeBits index 8
  let value ← u64At data pos
  let check ← parity[index]?
  return decodeWord value check

/-- The report with one more word. -/
def EccReport.count (r : EccReport) : Option WordStatus → EccReport
  | some (.clean _) | none => { r with words := r.words + 1 }
  | some (.corrected _) => { r with words := r.words + 1, corrected := r.corrected + 1 }
  | some .uncorrectable => { r with words := r.words + 1, uncorrectable := r.uncorrectable + 1 }

/-- Decode every word of the data. -/
def planeScan (usizeBits : ℕ) (parity data : List Byte) : EccReport :=
  (List.range (min (data.length / 8) parity.length)).foldl
    (fun report index => report.count (planeWord usizeBits parity data index)) ⟨0, 0, 0⟩

/-! ## Single faults -/

theorem bit_eq (data : BitVec 64) (i : ℕ) : (data >>> i) &&& 1#64 = 1#64 ↔ data.getLsbD i := by
  rw [BitVec.and_one_eq_setWidth_ofBool_getLsbD, BitVec.getLsbD_ushiftRight, Nat.add_zero]
  cases data.getLsbD i <;> decide

/-- The check bits are the syndrome of the data bits. -/
theorem checkByte_eq (data : BitVec 64) :
    checkByte data = ErrorCorrection.syndrome (columns.take 64) data.getLsbD := by
  have hlen : (columns.take 64).length = 64 := by
    rw [List.length_take, length_columns]
    rfl
  have h := ErrorCorrection.foldl_eq_syndrome (columns.take 64) data.getLsbD 0#8
  rw [hlen, BitVec.zero_xor] at h
  rw [← h, checkByte]
  apply List.foldl_ext
  intro s i hi
  have hi : i < 64 := List.mem_range.mp hi
  have hcol : (columns.take 64).getD i 0#8 = columns.getD i 0#8 := by
    rw [List.getD_eq_getElem?_getD, List.getD_eq_getElem?_getD, List.getElem?_take_of_lt hi]
  simp only [bit_eq, hcol]

/-- A flipped data bit changes the check bits by its column. -/
theorem checkByte_flip (data : BitVec 64) {i : ℕ} (hi : i < 64) :
    checkByte (data ^^^ (1#64 <<< i)) = checkByte data ^^^ columns.getD i 0#8 := by
  have hcol : (columns.take 64)[i]? = some (columns.getD i 0#8) := by
    have hlen : i < columns.length := by
      rw [length_columns]
      omega
    rw [List.getElem?_take_of_lt hi, List.getElem?_eq_getElem hlen, List.getD_eq_getElem _ _ hlen]
  rw [checkByte_eq, checkByte_eq]
  refine ErrorCorrection.syndrome_flip hcol ?_ fun j hj => ?_
  · rw [ErrorCorrection.getLsbD_flip data hi, if_pos rfl]
  · rw [ErrorCorrection.getLsbD_flip data hi, if_neg hj]

theorem decodeWord_clean (data : BitVec 64) : decodeWord data (checkByte data) = .clean data := by
  rw [decodeWord, BitVec.xor_self, if_pos rfl]

/-- The syndrome of a single fault locates it. -/
theorem decodeWord_column {data : BitVec 64} {check : Byte} {i : ℕ} (hi : i < 72)
    (h : checkByte data ^^^ check = columns.getD i 0#8) : decodeWord data check =
      if i < 64 then .corrected (data ^^^ (1#64 <<< i)) else .corrected data := by
  obtain ⟨hodd, hidx⟩ := columns_spec i hi
  have hne : columns.getD i 0#8 ≠ 0#8 := by
    intro h0
    rw [h0] at hodd
    exact absurd hodd (by decide)
  rw [decodeWord, h, if_neg hne, if_pos hodd, hidx]

/-- **A flipped data bit is repaired.** -/
theorem decodeWord_flip_data (data : BitVec 64) {i : ℕ} (hi : i < 64) :
    decodeWord (data ^^^ (1#64 <<< i)) (checkByte data) = .corrected data := by
  have hsyn : checkByte (data ^^^ (1#64 <<< i)) ^^^ checkByte data = columns.getD i 0#8 := by
    rw [checkByte_flip data hi, BitVec.xor_comm, ← BitVec.xor_assoc, BitVec.xor_self,
      BitVec.zero_xor]
  rw [decodeWord_column (by omega) hsyn, if_pos hi, BitVec.xor_assoc, BitVec.xor_self,
    BitVec.xor_zero]

/-- **A flipped check bit is recognised.** -/
theorem decodeWord_flip_check (data : BitVec 64) {j : ℕ} (hj : j < 8) :
    decodeWord data (checkByte data ^^^ (1#8 <<< j)) = .corrected data := by
  have hsyn : checkByte data ^^^ (checkByte data ^^^ (1#8 <<< j)) = columns.getD (64 + j) 0#8 := by
    rw [columns_check j hj, ← BitVec.xor_assoc, BitVec.xor_self, BitVec.zero_xor]
  rw [decodeWord_column (by omega) hsyn, if_neg (by omega)]

/-! ## Codewords -/

/-- A word with its check bits, the data in the low bits. -/
def codeword (data : BitVec 64) : BitVec 72 := checkByte data ++ data

/-- Decode 72 bits that were received. -/
def decodeReceived (y : BitVec 72) : WordStatus :=
  decodeWord (y.setWidth 64) (y.extractLsb' 64 8)

/-- What the received check bits differ from those of the received data by. -/
def receivedSyndrome (y : BitVec 72) : Byte := checkByte (y.setWidth 64) ^^^ y.extractLsb' 64 8

theorem setWidth_append (data : BitVec 64) (check : Byte) :
    (check ++ data : BitVec 72).setWidth 64 = data := by
  apply BitVec.eq_of_getLsbD_eq
  intro k hk
  rw [BitVec.getLsbD_setWidth, BitVec.getLsbD_append]
  simp [hk]

theorem extractLsb'_append (data : BitVec 64) (check : Byte) :
    (check ++ data : BitVec 72).extractLsb' 64 8 = check := by
  apply BitVec.eq_of_getLsbD_eq
  intro k hk
  rw [BitVec.getLsbD_extractLsb', BitVec.getLsbD_append]
  simp [hk]

theorem decodeReceived_append (data : BitVec 64) (check : Byte) :
    decodeReceived (check ++ data) = decodeWord data check := by
  rw [decodeReceived, setWidth_append, extractLsb'_append]

theorem receivedSyndrome_codeword (data : BitVec 64) : receivedSyndrome (codeword data) = 0#8 := by
  rw [receivedSyndrome, codeword, setWidth_append, extractLsb'_append, BitVec.xor_self]

/-- A flipped bit of the data. -/
theorem setWidth_flip (y : BitVec 72) {i : ℕ} (hi : i < 72) :
    (y ^^^ (1#72 <<< i)).setWidth 64 =
      if i < 64 then y.setWidth 64 ^^^ (1#64 <<< i) else y.setWidth 64 := by
  apply BitVec.eq_of_getLsbD_eq
  intro k hk
  rw [BitVec.getLsbD_setWidth, ErrorCorrection.getLsbD_flip y hi]
  split_ifs with hki h h
  · rw [ErrorCorrection.getLsbD_flip _ h, if_pos hki, BitVec.getLsbD_setWidth]
    simp [hk]
  · omega
  · rw [ErrorCorrection.getLsbD_flip _ h, if_neg hki, BitVec.getLsbD_setWidth]
  · rw [BitVec.getLsbD_setWidth]

/-- A flipped check bit. -/
theorem extractLsb'_flip (y : BitVec 72) {i : ℕ} (hi : i < 72) :
    (y ^^^ (1#72 <<< i)).extractLsb' 64 8 =
      if i < 64 then y.extractLsb' 64 8 else y.extractLsb' 64 8 ^^^ (1#8 <<< (i - 64)) := by
  apply BitVec.eq_of_getLsbD_eq
  intro k hk
  rw [BitVec.getLsbD_extractLsb', ErrorCorrection.getLsbD_flip y hi]
  split_ifs with hki h h
  · omega
  · rw [ErrorCorrection.getLsbD_flip _ (by omega), if_pos (by omega), BitVec.getLsbD_extractLsb']
    simp [hk]
  · rw [BitVec.getLsbD_extractLsb']
  · rw [ErrorCorrection.getLsbD_flip _ (by omega), if_neg (by omega), BitVec.getLsbD_extractLsb']

/-- **A flipped bit changes the syndrome by its column.** -/
theorem receivedSyndrome_flip (y : BitVec 72) {i : ℕ} (hi : i < 72) :
    receivedSyndrome (y ^^^ (1#72 <<< i)) = receivedSyndrome y ^^^ columns.getD i 0#8 := by
  rw [receivedSyndrome, receivedSyndrome, setWidth_flip y hi, extractLsb'_flip y hi]
  by_cases h : i < 64
  · rw [if_pos h, if_pos h, checkByte_flip _ h, BitVec.xor_assoc, BitVec.xor_assoc,
      BitVec.xor_comm (columns.getD i 0#8)]
  · have hcolumn := columns_check (i - 64) (by omega)
    rw [show 64 + (i - 64) = i by omega] at hcolumn
    rw [if_neg h, if_neg h, hcolumn, BitVec.xor_assoc]

theorem decodeReceived_flip (data : BitVec 64) {i : ℕ} (hi : i < 72) :
    decodeReceived (codeword data ^^^ (1#72 <<< i)) = .corrected data := by
  have hsyn := receivedSyndrome_flip (codeword data) hi
  rw [receivedSyndrome_codeword, BitVec.zero_xor] at hsyn
  have hdata : (codeword data).setWidth 64 = data := setWidth_append _ _
  rw [decodeReceived, decodeWord_column hi hsyn, setWidth_flip _ hi, hdata]
  split_ifs with h
  · rw [BitVec.xor_assoc, BitVec.xor_self, BitVec.xor_zero]
  · rfl

theorem countOnes_xor (a b : Byte) : countOnes (a ^^^ b) % 2 = (countOnes a + countOnes b) % 2 := by
  have h := ErrorCorrection.countP_xor a.getLsbD b.getLsbD (List.range 8)
  simpa [countOnes] using h

/-- **Two flipped bits are detected.** -/
theorem decodeReceived_flip_flip (data : BitVec 64) {i j : ℕ} (hi : i < 72) (hj : j < 72)
    (hne : i ≠ j) :
    decodeReceived (codeword data ^^^ (1#72 <<< i) ^^^ (1#72 <<< j)) = .uncorrectable := by
  have hsyn := receivedSyndrome_flip (codeword data ^^^ (1#72 <<< i)) hj
  rw [receivedSyndrome_flip _ hi, receivedSyndrome_codeword, BitVec.zero_xor] at hsyn
  obtain ⟨hiodd, hidx⟩ := columns_spec i hi
  obtain ⟨hjodd, hjdx⟩ := columns_spec j hj
  have hpos : columns.getD i 0#8 ^^^ columns.getD j 0#8 ≠ 0#8 := by
    intro h
    rw [BitVec.xor_eq_zero_iff.mp h, hjdx] at hidx
    exact hne (Option.some.inj hidx).symm
  have heven : ¬countOnes (columns.getD i 0#8 ^^^ columns.getD j 0#8) % 2 = 1 := by
    rw [countOnes_xor]
    omega
  rw [receivedSyndrome] at hsyn
  rw [decodeReceived, decodeWord, hsyn, if_neg hpos, if_neg heven]

/-- What is repaired is one bit away from a codeword. -/
theorem eq_codeword_flip_of_corrected {data v : BitVec 64} {check : Byte}
    (h : decodeWord data check = .corrected v) :
    ∃ i < 72, (check ++ data : BitVec 72) ^^^ codeword v = 1#72 <<< i := by
  unfold decodeWord at h
  dsimp only at h
  split_ifs at h
  split at h
  next i hfound =>
    obtain ⟨hi, hcolumn, -⟩ := List.findIdx?_eq_some_iff_getElem.mp hfound
    rw [length_columns] at hi
    have hsyn : checkByte data ^^^ check = columns.getD i 0#8 := by
      rw [List.getD_eq_getElem _ _ (by rw [length_columns]; exact hi)]
      exact (beq_iff_eq.mp hcolumn).symm
    -- Flipping the bit that the syndrome locates gives a codeword.
    have hflip : (check ++ data : BitVec 72) ^^^ (1#72 <<< i) = codeword v := by
      have hcheck : check = checkByte data ^^^ columns.getD i 0#8 := by
        rw [← hsyn, ← BitVec.xor_assoc, BitVec.xor_self, BitVec.zero_xor]
      have hparts (y : BitVec 72) : y = y.extractLsb' 64 8 ++ y.setWidth 64 := by
        apply BitVec.eq_of_getLsbD_eq
        intro k hk
        rw [BitVec.getLsbD_append, BitVec.getLsbD_setWidth, BitVec.getLsbD_extractLsb']
        by_cases hlow : k < 64
        · simp [hlow]
        · simp [hlow, show k - 64 < 8 by omega, show 64 + (k - 64) = k by omega]
      rw [hparts ((check ++ data : BitVec 72) ^^^ (1#72 <<< i)), setWidth_flip _ hi,
        extractLsb'_flip _ hi, setWidth_append, extractLsb'_append, codeword]
      split_ifs at h ⊢ with hlow
      · cases h
        rw [checkByte_flip _ hlow, ← hcheck]
      · cases h
        have hunit := columns_check (i - 64) (by omega)
        rw [show 64 + (i - 64) = i by omega] at hunit
        rw [hcheck, hunit, BitVec.xor_assoc, BitVec.xor_self, BitVec.xor_zero]
    refine ⟨i, hi, ?_⟩
    rw [← hflip, ← BitVec.xor_assoc, BitVec.xor_self, BitVec.zero_xor]
  next => cases h

/-- **The code corrects one fault and detects two**, and it repairs nothing that is further than one
bit away from the codeword it reports. -/
theorem decodeWord_secded (d : BitVec 64) (e : BitVec 72) (data v : BitVec 64) (check : Byte) :
    (ErrorCorrection.weight e = 0 → decodeReceived (codeword d ^^^ e) = .clean d) ∧
    (ErrorCorrection.weight e = 1 → decodeReceived (codeword d ^^^ e) = .corrected d) ∧
    (ErrorCorrection.weight e = 2 → decodeReceived (codeword d ^^^ e) = .uncorrectable) ∧
    (decodeWord data check = .clean v ∨ decodeWord data check = .corrected v →
      ErrorCorrection.weight ((check ++ data : BitVec 72) ^^^ codeword v) ≤ 1) := by
  refine ⟨fun h => ?_, fun h => ?_, fun h => ?_, ?_⟩
  · rw [ErrorCorrection.weight_eq_zero.mp h, BitVec.xor_zero, codeword, decodeReceived_append]
    exact decodeWord_clean d
  · obtain ⟨i, hi, rfl⟩ := ErrorCorrection.weight_eq_one h
    exact decodeReceived_flip d hi
  · obtain ⟨i, hi, j, hj, hne, rfl⟩ := ErrorCorrection.weight_eq_two h
    rw [← BitVec.xor_assoc]
    exact decodeReceived_flip_flip d hi hj hne
  · rintro (h | h)
    · -- A word without a syndrome is a codeword.
      have hclean : checkByte data ^^^ check = 0#8 ∧ data = v := by
        unfold decodeWord at h
        dsimp only at h
        split_ifs at h with hsyn hodd
        · exact ⟨hsyn, WordStatus.clean.inj h⟩
        · split at h
          · split_ifs at h
          · cases h
      obtain ⟨hsyn, rfl⟩ := hclean
      rw [codeword, BitVec.xor_eq_zero_iff.mp hsyn, BitVec.xor_self]
      exact (ErrorCorrection.weight_eq_zero.mpr rfl).trans_le zero_le_one
    · obtain ⟨i, hi, hflip⟩ := eq_codeword_flip_of_corrected h
      rw [hflip, ErrorCorrection.weight_single hi]

/-- One flipped bit of the word 5, two flipped bits of it, and a word that is repaired. -/
theorem decodeWord_secded_five :
    decodeReceived (codeword 5#64 ^^^ (1#72 <<< 70)) = .corrected 5#64 ∧
      decodeReceived (codeword 5#64 ^^^ ((1#72 <<< 3) ^^^ (1#72 <<< 66))) = .uncorrectable ∧
      ErrorCorrection.weight ((0#8 ++ 1#64 : BitVec 72) ^^^ codeword 0#64) ≤ 1 :=
  ⟨(decodeWord_secded 5#64 (1#72 <<< 70) 1#64 0#64 0#8).2.1 (by decide +kernel),
    (decodeWord_secded 5#64 ((1#72 <<< 3) ^^^ (1#72 <<< 66)) 1#64 0#64 0#8).2.2.1
      (by decide +kernel),
    (decodeWord_secded 5#64 0#72 1#64 0#64 0#8).2.2.2 (.inr (by decide +kernel))⟩

end KeleusmaWire
