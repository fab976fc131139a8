import Wireboard.Json.Basic
import Wireboard.Number.Binary

/-!
# The value of a JSON number

A literal is read as the digits that fit into 64 bits, rounded to a double, and a power of ten that
the double is then multiplied or divided by.  Up to fifteen digits and exponents up to twenty-two
this is the nearest double; beyond, it may be one beside it.  A result beyond the range is refused.
-/

namespace Wireboard.Json

/-- Appends digits to `n` as long as the number stays below `2 ^ 64`, and gives back the rest. -/
def takeWord (n : Nat) : List Digit → Nat × List Digit
  | [] => (n, [])
  | d :: ds => if 10 * n + d.val < Nat.pow 2 64 then takeWord (10 * n + d.val) ds else (n, d :: ds)

/-- The double nearest to a natural number. -/
def doubleOfNat (n : Nat) : Float := .ofScientific n false 0

/-- The double nearest to `10 ^ k`. -/
def tenPow (k : Nat) : Float := .ofScientific 1 false k

/-- `x` divided by `10 ^ 308`, `n` times unless it gets to zero before. -/
def shrink : Nat → Float → Float
  | 0, x => x
  | n + 1, x => if x == 0.0 then x else shrink n (x / tenPow 308)

/-- `x` times `10 ^ e`, unless that is beyond the range.  Small results come about by divisions by
at most `10 ^ 308`. -/
def scaled? (x : Float) (e : Int) : Option Float :=
  if e < 0 then
    let n := (e.natAbs - 1) / 308
    some (shrink n x / tenPow (e.natAbs - 308 * n))
  else if e ≤ 308 then
    let y := x * tenPow e.toNat
    if y.isInf then none else some y
  else if x == 0.0 then some x
  else none

/-- The double that a literal stands for. -/
def double? (n : Literal) : Option Float :=
  let (w, raised) := takeWord 0 n.whole
  let (w, unused) := takeWord w n.fraction
  let e := n.scale + raised.length - (n.fraction.length - unused.length : Nat)
  (scaled? (doubleOfNat w) e).map n.signed

/-- The single that a literal stands for.  A whole number of 64 bits is rounded once, anything else
goes through a double; what is beyond the range of singles becomes infinite. -/
def single? (n : Literal) : Option Float32 :=
  let w := Digit.value n.whole
  if n.fraction.isEmpty && n.exponent.isNone && !n.negative && w < Nat.pow 2 64 then
    some (.ofNat w)
  else if n.fraction.isEmpty && n.exponent.isNone && n.negative && 0 < w && w ≤ Nat.pow 2 63 then
    some (-.ofNat w)
  else (double? n).map Binary.toSingle

end Wireboard.Json
