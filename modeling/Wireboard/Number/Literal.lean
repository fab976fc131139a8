import Wireboard.Number.Digit

/-!
# Decimal literals

A number as it is written: sign, digits before and after the point, exponent.  What a literal means
is decided by the format that it is read in.
-/

namespace Wireboard

/-- The sign in front of an exponent. -/
inductive Sign where
  | plus | minus
  deriving DecidableEq

/-- `Literal.mk negative whole fraction exponent` is written `-whole.fractionE±exponent`; an empty
fraction goes without its point. -/
structure Literal where
  negative : Bool
  whole : List Digit
  fraction : List Digit
  exponent : Option (Option Sign × List Digit)
  deriving DecidableEq

namespace Literal

/-- The characters of an exponent. -/
def exponentText : Option (Option Sign × List Digit) → List Char
  | none => []
  | some (none, ds) => 'e' :: Digit.text ds
  | some (some .plus, ds) => 'e' :: '+' :: Digit.text ds
  | some (some .minus, ds) => 'e' :: '-' :: Digit.text ds

/-- The characters of a literal. -/
def text (n : Literal) : List Char :=
  (if n.negative then ['-'] else []) ++ Digit.text n.whole ++
    (match n.fraction with
      | [] => []
      | ds => '.' :: Digit.text ds) ++ exponentText n.exponent

/-- The power of ten that the exponent names. -/
def scale (n : Literal) : Int :=
  match n.exponent with
  | none => 0
  | some (some .minus, ds) => -(Digit.value ds : Int)
  | some (_, ds) => Digit.value ds

/-- All digits, as if there were no point. -/
def significand (n : Literal) : Nat := Digit.value (n.whole ++ n.fraction)

/-- `x` under the sign of the literal. -/
def signed (n : Literal) (x : Float) : Float := if n.negative then -x else x

/-- The double nearest to the number written, infinite beyond the range. -/
def nearest (n : Literal) : Float :=
  let e := n.scale - n.fraction.length
  n.signed (.ofScientific n.significand (e < 0) e.natAbs)

/-- The exponent that a text begins with, and what follows it.  A letter `e` without digits is a
fault. -/
def readExponent : List Char → Option (Option (Option Sign × List Digit) × List Char)
  | [] => some (none, [])
  | c :: cs =>
    if c = 'e' ∨ c = 'E' then
      let (s, cs) : Option Sign × List Char := match cs with
        | '+' :: cs => (some .plus, cs)
        | '-' :: cs => (some .minus, cs)
        | cs => (none, cs)
      match Digit.read cs with
      | ([], _) => none
      | (ds, cs) => some (some (s, ds), cs)
    else some (none, c :: cs)

end Literal

end Wireboard
