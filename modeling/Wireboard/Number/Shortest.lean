import Wireboard.Number.Digit

/-!
# Shortest decimals

A finite binary number stands for an interval of reals, those that round to it.  Its shortest
decimal is the one with the fewest digits in that interval, and among those the nearest to the
number itself.  Everything here is exact arithmetic on rationals.
-/

namespace Wireboard

/-- `0.d₁d₂d₃… · 10 ^ point`. -/
structure Decimal where
  digits : List Digit
  point : Int
  deriving DecidableEq

/-- Which of two decimals that are equally near is taken. -/
inductive Tie where
  | up | even
  deriving DecidableEq

namespace Decimal

open Float.Model (Format)

/-- Zero, written with one digit. -/
def zero : Decimal := ⟨[Digit.zero], 1⟩

/-- The decimal `n · 10 ^ k`. -/
def ofNat (n : Nat) (k : Int) : Decimal :=
  let ds := Digit.ofNat n
  ⟨ds, k + ds.length⟩

/-- The reals that round to a positive binary number, and the number. -/
structure Interval where
  lo : Rat
  hi : Rat
  /-- The ends belong to the interval. -/
  closed : Bool
  value : Rat

/-- The interval of `m · 2 ^ e`.  Below a power of two the neighbours lie twice as close, except at
the bottom of the format.  The ends round to the number when `m` is even. -/
def Interval.of (f : Format) (m : Nat) (e : Int) : Interval :=
  let unit := (2 : Rat) ^ e
  let below := if m = Nat.pow 2 f.mantissaBitsWithoutImplicit ∧ f.minExponent < e then unit / 2 else unit
  ⟨m * unit - below / 2, m * unit + unit / 2, m % 2 == 0, m * unit⟩

/-- `q` lies in the interval. -/
def Interval.contains (i : Interval) (q : Rat) : Bool :=
  if i.closed then i.lo ≤ q && q ≤ i.hi else i.lo < q && q < i.hi

/-- The multiple of `10 ^ k` in the interval that is nearest to the number. -/
def Interval.onGrid? (t : Tie) (i : Interval) (k : Int) : Option Nat :=
  let unit := (10 : Rat) ^ k
  let below := (i.value / unit).floor.toNat
  let above := below + 1
  match i.contains (below * unit), i.contains (above * unit) with
  | true, true =>
    let left := i.value - below * unit
    let right := above * unit - i.value
    if left < right then some below
    else if right < left then some above
    else if t = .even ∧ below % 2 = 0 then some below else some above
  | true, false => some below
  | false, true => some above
  | false, false => none

/-- The first grid that meets the interval, from `10 ^ k` down to finer ones, `n` of them at most.
Failing that, the number is cut on the last grid. -/
def Interval.search (t : Tie) (i : Interval) : Nat → Int → Decimal
  | 0, k => ofNat (i.value / (10 : Rat) ^ k).floor.toNat k
  | n + 1, k =>
    match i.onGrid? t k with
    | some c => ofNat c k
    | none => i.search t n (k - 1)

/-- The shortest decimal of `m · 2 ^ e`.  The search begins on a grid coarser than the number; a
double needs seventeen digits at most, so it is over after nineteen grids. -/
def shortest (t : Tie) (f : Format) (m : Nat) (e : Int) : Decimal :=
  (Interval.of f m e).search t 24 ((m.log2 + e + 1) * 30103 / 100000 + 1)

end Decimal

end Wireboard
