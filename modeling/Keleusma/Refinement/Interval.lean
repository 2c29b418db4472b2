import Mathlib.Algebra.Group.Int.Defs
import Mathlib.Data.Int.Order.Basic
import Mathlib.Tactic.Common

/-!
# Intervals and sets of intervals

An interval of 64-bit integers has closed bounds, and no bound means that it is unbounded on that
side. A set is a list of intervals; its constructor drops the empty ones, sorts the rest by their
lower bounds and merges those that overlap or touch. The operations of sets work on the components
and build their result with this constructor.
-/

namespace Keleusma.Refinement

/-- A signed integer of 64 bits. -/
structure I64 where
  val : ℤ
  property : -2 ^ 63 ≤ val ∧ val < 2 ^ 63
  deriving DecidableEq

namespace I64

instance : LE I64 := ⟨fun a b => a.val ≤ b.val⟩

instance : LT I64 := ⟨fun a b => a.val < b.val⟩

instance (a b : I64) : Decidable (a ≤ b) := inferInstanceAs (Decidable (a.val ≤ b.val))

instance (a b : I64) : Decidable (a < b) := inferInstanceAs (Decidable (a.val < b.val))

instance : Max I64 := ⟨fun a b => if a ≤ b then b else a⟩

instance : Min I64 := ⟨fun a b => if a ≤ b then a else b⟩

/-- `i64::MIN`. -/
def least : I64 := ⟨-2 ^ 63, by decide⟩

/-- `i64::MAX`. -/
def greatest : I64 := ⟨2 ^ 63 - 1, by decide⟩

/-- The result of an operation, unless it overflows. -/
def checked (v : ℤ) : Option I64 := if h : -2 ^ 63 ≤ v ∧ v < 2 ^ 63 then some ⟨v, h⟩ else none

/-- Negation; that of the least number overflows. -/
def checkedNeg (a : I64) : Option I64 := checked (-a.val)

/-- Addition, unless it overflows. -/
def checkedAdd (a b : I64) : Option I64 := checked (a.val + b.val)

/-- Multiplication, unless it overflows. -/
def checkedMul (a b : I64) : Option I64 := checked (a.val * b.val)

/-- The quotient, truncated towards zero; the least number over `-1` overflows. -/
def checkedDiv (a b : I64) : Option I64 := if b.val = 0 then none else checked (a.val.tdiv b.val)

end I64

/-- The bound that is there, or the combination of both. -/
def eitherBound (f : I64 → I64 → I64) : Option I64 → Option I64 → Option I64
  | none, x => x
  | x, none => x
  | some a, some b => some (f a b)

/-- The combination of two bounds, if both are there. -/
def bothBounds (f : I64 → I64 → I64) : Option I64 → Option I64 → Option I64
  | some a, some b => some (f a b)
  | _, _ => none

/-! ## Intervals -/

/-- A closed interval; no bound stands for infinity. -/
structure Interval where
  lo : Option I64
  hi : Option I64
  deriving DecidableEq

namespace Interval

/-- All integers. -/
def full : Interval := ⟨none, none⟩

/-- The form in which the operations return the empty interval. -/
def empty : Interval := ⟨some ⟨1, by decide⟩, some ⟨0, by decide⟩⟩

/-- One integer. -/
def singleton (n : I64) : Interval := ⟨some n, some n⟩

/-- The integers from a bound on. -/
def atLeast (n : I64) : Interval := ⟨some n, none⟩

/-- The integers up to a bound. -/
def atMost (n : I64) : Interval := ⟨none, some n⟩

/-- The integers between two bounds; there are none when the bounds cross. -/
def range (lo hi : I64) : Interval := if hi < lo then empty else ⟨some lo, some hi⟩

/-- The bounds cross. -/
def isEmpty (i : Interval) : Bool :=
  match i.lo, i.hi with
  | some l, some h => decide (h < l)
  | _, _ => false

/-- The integer is in the interval. -/
def contains (i : Interval) (n : I64) : Bool :=
  if i.isEmpty then false
  else if i.lo.any fun l => decide (n < l) then false
  else if i.hi.any fun h => decide (h < n) then false
  else true

/-- No bound of the interval lies beyond that of the other. -/
def isSubsetOf (i other : Interval) : Bool :=
  if i.isEmpty then true
  else if other.isEmpty then false
  else
    let loOk := match i.lo, other.lo with
      | _, none => true
      | none, some _ => false
      | some s, some o => decide (o ≤ s)
    let hiOk := match i.hi, other.hi with
      | _, none => true
      | none, some _ => false
      | some s, some o => decide (s ≤ o)
    loOk && hiOk

/-- The intersection, in the form of `empty` when the bounds cross. -/
def intersect (i other : Interval) : Interval :=
  if i.isEmpty || other.isEmpty then empty
  else
    let lo := eitherBound max i.lo other.lo
    let hi := eitherBound min i.hi other.hi
    match lo, hi with
    | some l, some h => if h < l then empty else ⟨some l, some h⟩
    | _, _ => ⟨lo, hi⟩

/-- The convex hull. -/
def union (i other : Interval) : Interval :=
  if i.isEmpty then other
  else if other.isEmpty then i
  else ⟨bothBounds min i.lo other.lo, bothBounds max i.hi other.hi⟩

/-- The negations; everything when a bound overflows. -/
def neg (i : Interval) : Interval :=
  if i.isEmpty then empty
  else
    let newLo := i.hi.bind I64.checkedNeg
    let newHi := i.lo.bind I64.checkedNeg
    if (i.hi.isSome && newLo.isNone) || (i.lo.isSome && newHi.isNone) then full
    else ⟨newLo, newHi⟩

/-- The sum of two bounds, if both are there and it does not overflow. -/
def combineAdd : Option I64 → Option I64 → Option I64
  | some x, some y => x.checkedAdd y
  | _, _ => none

/-- The sums; everything when a bound overflows. -/
def add (i other : Interval) : Interval :=
  if i.isEmpty || other.isEmpty then empty
  else
    let lo := combineAdd i.lo other.lo
    let hi := combineAdd i.hi other.hi
    if (i.lo.isSome && other.lo.isSome && lo.isNone) ||
        (i.hi.isSome && other.hi.isSome && hi.isNone) then full
    else ⟨lo, hi⟩

/-- The differences, as sums with the negations. -/
def sub (i other : Interval) : Interval := i.add other.neg

/-- Bounds that grow are given up. -/
def widen (i other : Interval) : Interval :=
  if i.isEmpty then other
  else if other.isEmpty then i
  else
    let lo := match i.lo, other.lo with
      | some a, some b => if b < a then none else some a
      | _, _ => none
    let hi := match i.hi, other.hi with
      | some a, some b => if a < b then none else some a
      | _, _ => none
    ⟨lo, hi⟩

/-- The hull of the results at the four corners, if none of them overflows. -/
def corners (op : I64 → I64 → Option I64) (a b c d : I64) : Interval :=
  match op a c, op a d, op b c, op b d with
  | some p, some q, some r, some s =>
    ⟨some (min (min p q) (min r s)), some (max (max p q) (max r s))⟩
  | _, _, _, _ => full

/-- The products; everything without all four bounds. -/
def mul (i other : Interval) : Interval :=
  if i.isEmpty || other.isEmpty then empty
  else
    match i.lo, i.hi, other.lo, other.hi with
    | some a, some b, some c, some d => corners I64.checkedMul a b c d
    | _, _, _, _ => full

/-- The quotients; everything when the divisor may be zero. -/
def div (i other : Interval) : Interval :=
  if i.isEmpty || other.isEmpty then empty
  else
    match i.lo, i.hi, other.lo, other.hi with
    | some a, some b, some c, some d =>
      if c.val ≤ 0 ∧ 0 ≤ d.val then full else corners I64.checkedDiv a b c d
    | _, _, _, _ => full

/-- The remainders, bounded by the larger absolute value of the divisor. -/
def rem (i other : Interval) : Interval :=
  if i.isEmpty || other.isEmpty then empty
  else
    match other.lo, other.hi with
    | some c, some d =>
      if c.val ≤ 0 ∧ 0 ≤ d.val then full
      else if h : c = d ∧ 0 < c.val then
        let top : I64 := ⟨c.val - 1, by have := c.property; omega⟩
        if i.lo.any fun l => decide (0 ≤ l.val) then range ⟨0, by decide⟩ top
        else range ⟨-(c.val - 1), by have := c.property; omega⟩ top
      else full
    | _, _ => full

end Interval

/-! ## Sets -/

/-- The order of two lower bounds. -/
def cmpLo : Option I64 → Option I64 → Ordering
  | none, none => .eq
  | none, some _ => .lt
  | some _, none => .gt
  | some x, some y => compare x.val y.val

/-- No number lies between the end of an interval and the beginning of a later one. -/
def touches : Option I64 → Option I64 → Bool
  | none, _ => true
  | some _, none => true
  | some h, some l => decide (l ≤ h) || h.checkedAdd ⟨1, by decide⟩ == some l

/-- The interval that two intervals make up together if they overlap or touch. -/
def mergeIfTouching (a b : Interval) : Option Interval :=
  if a.isEmpty then some b
  else if b.isEmpty then some a
  else
    let (first, second) := if cmpLo a.lo b.lo = .gt then (b, a) else (a, b)
    if !touches first.hi second.lo then none
    else some ⟨first.lo, bothBounds max first.hi second.hi⟩

/-- A set of integers as a list of intervals. -/
structure IntervalSet where
  intervals : List Interval
  deriving DecidableEq

namespace IntervalSet

/-- No interval. -/
def empty : IntervalSet := ⟨[]⟩

/-- The interval of all integers. -/
def full : IntervalSet := ⟨[.full]⟩

/-- One integer. -/
def singleton (n : I64) : IntervalSet := ⟨[.singleton n]⟩

/-- One interval, unless it is empty. -/
def fromInterval (i : Interval) : IntervalSet := if i.isEmpty then empty else ⟨[i]⟩

/-- Add an interval behind those that are merged already. -/
def pushMerged (merged : List Interval) (i : Interval) : List Interval :=
  match merged.getLast?.bind fun last => mergeIfTouching last i with
  | some joined => merged.dropLast ++ [joined]
  | none => merged ++ [i]

/-- Normalise: drop the empty intervals, sort, and merge. -/
def fromIntervals (v : List Interval) : IntervalSet :=
  let v := v.filter fun i => !i.isEmpty
  let v := v.mergeSort fun a b => cmpLo a.lo b.lo != .gt
  ⟨v.foldl pushMerged []⟩

/-- There is no interval. -/
def isEmpty (s : IntervalSet) : Bool := s.intervals.isEmpty

/-- The integer is in one of the intervals. -/
def contains (s : IntervalSet) (n : I64) : Bool := s.intervals.any fun i => i.contains n

/-- Every interval is contained in a single one of the other set. -/
def isSubsetOf (s other : IntervalSet) : Bool :=
  if s.isEmpty then true
  else s.intervals.all fun si => other.intervals.any fun oi => si.isSubsetOf oi

/-- The intersections of the intervals of both sets, normalised. -/
def intersect (s other : IntervalSet) : IntervalSet :=
  fromIntervals (s.intervals.flatMap fun a =>
    (other.intervals.map fun b => a.intersect b).filter fun p => !p.isEmpty)

/-- The intervals of both sets, normalised. -/
def union (s other : IntervalSet) : IntervalSet := fromIntervals (s.intervals ++ other.intervals)

/-- The state of the walk over the components: the gaps so far, where the next gap starts (`none`
at negative infinity), whether no component has been passed yet, and whether one has reached
positive infinity. -/
structure GapWalk where
  parts : List Interval
  cursor : Option I64
  atNegInfinity : Bool
  finished : Bool

namespace GapWalk

/-- The gap before a component. -/
def gap (w : GapWalk) (lo : Option I64) : List Interval :=
  match w.atNegInfinity, lo with
  | true, none => []
  | true, some l => ((I64.checked (l.val - 1)).map Interval.atMost).toList
  | false, none => []
  | false, some l =>
    match w.cursor, I64.checked (l.val - 1) with
    | some c, some h => if c ≤ h then [Interval.range c h] else []
    | _, _ => []

/-- Pass a component. -/
def pass (w : GapWalk) (i : Interval) : GapWalk :=
  if w.finished then w
  else
    let parts := w.parts ++ w.gap i.lo
    match i.hi.bind fun h => h.checkedAdd ⟨1, by decide⟩ with
    | none => ⟨parts, w.cursor, false, true⟩
    | some next => ⟨parts, some next, false, false⟩

/-- The gaps, the one after the last component included. -/
def gaps (w : GapWalk) : List Interval :=
  match w.finished, w.cursor with
  | false, some c => w.parts ++ [Interval.atLeast c]
  | _, _ => w.parts

end GapWalk

/-- The gaps between the intervals, normalised. -/
def complement (s : IntervalSet) : IntervalSet :=
  if s.intervals.isEmpty then full
  else fromIntervals (s.intervals.foldl GapWalk.pass ⟨[], none, true, false⟩).gaps

/-- Apply an operation to every pair of components. -/
def pairwise (s other : IntervalSet) (op : Interval → Interval → Interval) : IntervalSet :=
  fromIntervals (s.intervals.flatMap fun a => other.intervals.map fun b => op a b)

/-- The negations, interval by interval. -/
def neg (s : IntervalSet) : IntervalSet := fromIntervals (s.intervals.map Interval.neg)

/-- The sums, pair by pair. -/
def add (s other : IntervalSet) : IntervalSet := s.pairwise other .add

/-- The differences, pair by pair. -/
def sub (s other : IntervalSet) : IntervalSet := s.pairwise other .sub

/-- The products, pair by pair. -/
def mul (s other : IntervalSet) : IntervalSet := s.pairwise other .mul

/-- The quotients, pair by pair. -/
def div (s other : IntervalSet) : IntervalSet := s.pairwise other .div

/-- The remainders, pair by pair. -/
def rem (s other : IntervalSet) : IntervalSet := s.pairwise other .rem

/-- The convex hull of a set. -/
def hull (s : IntervalSet) : Interval := s.intervals.foldl .union .empty

/-- Widening of the hulls. -/
def widen (s other : IntervalSet) : IntervalSet := fromInterval (s.hull.widen other.hull)

/-- The sets that the constructors and the operations build. -/
inductive Built : IntervalSet → Prop
  | empty : Built empty
  | full : Built full
  | singleton (n : I64) : Built (singleton n)
  | fromInterval (i : Interval) : Built (fromInterval i)
  | fromIntervals (v : List Interval) : Built (fromIntervals v)
  | intersect {s t : IntervalSet} (hs : Built s) (ht : Built t) : Built (s.intersect t)
  | union {s t : IntervalSet} (hs : Built s) (ht : Built t) : Built (s.union t)
  | complement {s : IntervalSet} (hs : Built s) : Built s.complement
  | neg {s : IntervalSet} (hs : Built s) : Built s.neg
  | add {s t : IntervalSet} (hs : Built s) (ht : Built t) : Built (s.add t)
  | sub {s t : IntervalSet} (hs : Built s) (ht : Built t) : Built (s.sub t)
  | mul {s t : IntervalSet} (hs : Built s) (ht : Built t) : Built (s.mul t)
  | div {s t : IntervalSet} (hs : Built s) (ht : Built t) : Built (s.div t)
  | rem {s t : IntervalSet} (hs : Built s) (ht : Built t) : Built (s.rem t)
  | widen {s t : IntervalSet} (hs : Built s) (ht : Built t) : Built (s.widen t)

end IntervalSet

end Keleusma.Refinement
