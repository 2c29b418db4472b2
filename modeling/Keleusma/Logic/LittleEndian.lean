import Mathlib.Data.Nat.Bitwise
import Mathlib.Data.BitVec

/-!
# Little-endian numbers

The number that a list of bytes stands for, least significant byte first, and the bytes of a
number. The two are inverse to each other (`ofBytes_toBytes`, `toBytes_ofBytes`), and the bits of
the number are the bits of the bytes (`testBit_ofBytes`).
-/

namespace LittleEndian

/-- The number that the bytes stand for. -/
def ofBytes : List (BitVec 8) → ℕ
  | [] => 0
  | b :: bs => 2 ^ 8 * ofBytes bs + b.toNat

/-- The lowest `n` bytes of a number. -/
def toBytes : ℕ → ℕ → List (BitVec 8)
  | 0, _ => []
  | n + 1, v => BitVec.ofNat 8 v :: toBytes n (v / 2 ^ 8)

@[simp] theorem length_toBytes (n v : ℕ) : (toBytes n v).length = n := by
  induction n generalizing v with
  | zero => rfl
  | succ n ih => simp [toBytes, ih]

theorem ofBytes_lt (bs : List (BitVec 8)) : ofBytes bs < 2 ^ (8 * bs.length) := by
  induction bs with
  | nil => simp [ofBytes]
  | cons b bs ih =>
    have hb := b.isLt
    rw [ofBytes, List.length_cons, Nat.mul_succ, Nat.pow_add]
    omega

theorem ofBytes_toBytes {n v : ℕ} (h : v < 2 ^ (8 * n)) : ofBytes (toBytes n v) = v := by
  induction n generalizing v with
  | zero =>
    rw [Nat.mul_zero, Nat.pow_zero] at h
    simp only [toBytes, ofBytes]
    omega
  | succ n ih =>
    rw [Nat.mul_succ, Nat.pow_add] at h
    rw [toBytes, ofBytes, ih (by omega), BitVec.toNat_ofNat]
    omega

theorem toBytes_ofBytes (bs : List (BitVec 8)) : toBytes bs.length (ofBytes bs) = bs := by
  induction bs with
  | nil => rfl
  | cons b bs ih =>
    have hb := b.isLt
    have hlow : BitVec.ofNat 8 (2 ^ 8 * ofBytes bs + b.toNat) = b := by
      apply BitVec.eq_of_toNat_eq
      rw [BitVec.toNat_ofNat]
      omega
    have hhigh : (2 ^ 8 * ofBytes bs + b.toNat) / 2 ^ 8 = ofBytes bs := by omega
    rw [List.length_cons, toBytes, ofBytes, hlow, hhigh, ih]

/-- A bit of the number is a bit of one of its bytes. -/
theorem testBit_ofBytes (bs : List (BitVec 8)) (i : ℕ) :
    (ofBytes bs).testBit i = (bs.getD (i / 8) 0).getLsbD (i % 8) := by
  induction bs generalizing i with
  | nil => simp [ofBytes]
  | cons b bs ih =>
    rw [ofBytes, Nat.testBit_two_pow_mul_add _ b.isLt]
    split_ifs with hi
    · rw [Nat.div_eq_of_lt hi, Nat.mod_eq_of_lt hi]
      rfl
    · obtain ⟨j, rfl⟩ := Nat.exists_eq_add_of_le' (not_lt.mp hi)
      rw [Nat.add_sub_cancel, ih, Nat.add_div_right _ (by decide), Nat.add_mod_right]
      rfl

end LittleEndian
