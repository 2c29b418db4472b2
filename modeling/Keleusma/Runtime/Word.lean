import Keleusma.Bytecode.Program

/-!
# Words and checked arithmetic

A word is a two's-complement integer of the runtime's width `2 ^ bitsLog2`, held here as the
integer it denotes. Wide intermediate results are unbounded integers: the runtime computes them
at twice the word width, where none of the operations below overflows.

The checked operations report a triple `(low, high, flag)`: the low half at the width the module
declares, the remaining high half, and the outcome (`0` in range, `1` overflow, `2` underflow,
`3` zero divisor).
-/

namespace Keleusma

namespace Word

/-- The number of bits of a word. -/
def bits (bitsLog2 : ℕ) : ℕ := 2 ^ bitsLog2

/-- Truncate to the word width, `from_i64_wrap` and `from_wide_wrap` of the source. -/
def wrap (bitsLog2 : ℕ) (n : Int) : Int := n.bmod (2 ^ bits bitsLog2)

def min (bitsLog2 : ℕ) : Int := -2 ^ (bits bitsLog2 - 1)

def max (bitsLog2 : ℕ) : Int := 2 ^ (bits bitsLog2 - 1) - 1

/-- Arithmetic shift right of a word or of a wide intermediate. -/
def shiftRight (n : Int) (k : ℕ) : Int := n / 2 ^ k

/-- The word as the unsigned number of its bit pattern. -/
def toUnsigned (bitsLog2 : ℕ) (n : Int) : ℕ := (n % 2 ^ bits bitsLog2).toNat

/-- A bitwise operation on two words through their bit patterns. -/
def bitwise (bitsLog2 : ℕ) (f : ℕ → ℕ → ℕ) (x y : Int) : Int :=
  wrap bitsLog2 (f (toUnsigned bitsLog2 x) (toUnsigned bitsLog2 y))

/-- The shift distance a word denotes: its low bits, below the word width. -/
def shiftCount (bitsLog2 : ℕ) (c : Int) : ℕ := (c % (bits bitsLog2 : ℕ)).toNat

/-- Clamp to the range of the word. -/
def saturate (bitsLog2 : ℕ) (n : Int) : Int :=
  if max bitsLog2 < n then max bitsLog2 else if n < min bitsLog2 then min bitsLog2 else n

/-- The bytes of the low `n` bytes of the word, least significant first. -/
def toLeBytes (n : Int) : ℕ → List UInt8
  | 0 => []
  | k + 1 => UInt8.ofNat (n % 256).toNat :: toLeBytes (n / 256) k

/-- The unsigned number of a little-endian byte sequence. -/
def ofLeBytes : List UInt8 → ℕ
  | [] => 0
  | b :: bs => b.toNat + 256 * ofLeBytes bs

@[simp] theorem toLeBytes_length (n : Int) (k : ℕ) : (toLeBytes n k).length = k := by
  induction k generalizing n with
  | zero => rfl
  | succ k ih => simp [toLeBytes, ih]

end Word

open Word

/-! ## Checked results -/

/-- The largest value of the width the module declares, on the runtime's width. -/
def declaredMax (runtimeLog2 declaredLog2 : ℕ) : Int :=
  if runtimeLog2 ≤ declaredLog2 then Word.max runtimeLog2 else Word.max declaredLog2

/-- The smallest value of the width the module declares, on the runtime's width. -/
def declaredMin (runtimeLog2 declaredLog2 : ℕ) : Int :=
  if runtimeLog2 ≤ declaredLog2 then Word.min runtimeLog2 else Word.min declaredLog2

/-- `0` in range, `1` above it, `2` below it. -/
def rangeFlag (lo hi r : Int) : Int :=
  if lo ≤ r ∧ r ≤ hi then 0 else if hi < r then 1 else 2

/-- The `(low, high, flag)` triple of a checked operation on words. -/
def checkedArithOutputs (runtimeLog2 declaredLog2 : ℕ) (r : Int) : Int × Int × Int :=
  let narrow := declaredLog2 < runtimeLog2
  let lowRaw := wrap runtimeLog2 r
  let low := if declaredLog2 < 6 then wrap declaredLog2 lowRaw else lowRaw
  let low := wrap runtimeLog2 low
  let high :=
    if narrow then wrap runtimeLog2 (shiftRight (r - low) (bits declaredLog2))
    else wrap runtimeLog2 (shiftRight r (bits runtimeLog2))
  (low, high,
    rangeFlag (declaredMin runtimeLog2 declaredLog2) (declaredMax runtimeLog2 declaredLog2) r)

/-- The low half and the flag of a checked operation on fixed-point numbers, which always have
the runtime's width. -/
def fixedCheckedOutputs (runtimeLog2 : ℕ) (r : Int) : Int × Int :=
  (wrap runtimeLog2 r, rangeFlag (Word.min runtimeLog2) (Word.max runtimeLog2) r)

end Keleusma
