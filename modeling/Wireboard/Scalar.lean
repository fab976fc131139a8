/-!
# Scalars

Coordinates, widths and zoom scales are scalars.  The board is written over any type with the
operations below, so that one text of it can be run in single precision and read over the
rationals, where `/` undoes `*` and nothing is rounded.
-/

namespace Wireboard

/-- Numbers that coordinates are made of.  `==` and `<` are the numerical comparisons: a value that
is not a number differs from itself and is in order with nothing. -/
class Scalar (α : Type) extends
    Add α, Sub α, Mul α, Div α, Neg α, LT α, LE α, BEq α, OfScientific α where
  [decLt : DecidableLT α]
  [decLe : DecidableLE α]
  /-- The square root, of which only the order of results matters. -/
  sqrt : α → α
  /-- Neither infinite nor a NaN. -/
  isFinite : α → Bool

attribute [reducible, instance] Scalar.decLt Scalar.decLe

/-- Single precision: every operation rounds once, to nearest, ties to even. -/
instance : Scalar Float32 where
  sqrt := Float32.sqrt
  isFinite := Float32.isFinite

/-- The greatest natural number whose square is at most `n`. -/
def natSqrt : Nat → Nat
  | 0 => 0
  | n + 1 =>
    let r := natSqrt n
    if (r + 1) * (r + 1) ≤ n + 1 then r + 1 else r

/-- Exact arithmetic.  The root is exact on squares of fractions and otherwise the best from below
with the same denominator. -/
instance : Scalar Rat where
  sqrt q := if q < 0 then 0 else natSqrt (q.num.toNat * q.den) / q.den
  isFinite _ := true

namespace Scalar

variable {α : Type} [Scalar α]

/-- `x` moved into `lo … hi`; what is in order with neither bound stays. -/
def clamp (lo hi x : α) : α :=
  if x < lo then lo else if hi < x then hi else x

end Scalar

end Wireboard
