import Wireboard.Number.Literal
import Wireboard.Text.Blank

/-!
# Numbers that are typed

What a user may type for a number: an optional sign, digits with an optional point among or beside
them, an optional exponent, blanks around it all.
-/

namespace Wireboard.Reading

/-- The sign that a text begins with (true for a minus), and what follows it. -/
def sign : List Char → Bool × List Char
  | '+' :: cs => (false, cs)
  | '-' :: cs => (true, cs)
  | cs => (false, cs)

/-- The literal that is all of the text. -/
def literal? (cs : List Char) : Option Literal :=
  let (negative, cs) := sign cs
  let (whole, cs) := Digit.read cs
  let (fraction, cs) := match cs with
    | '.' :: cs => Digit.read cs
    | cs => ([], cs)
  if whole.isEmpty && fraction.isEmpty then none
  else match Literal.readExponent cs with
    | some (exponent, []) => some ⟨negative, whole, fraction, exponent⟩
    | _ => none

/-- The finite number that a text is, blanks at its ends aside. -/
def number? (cs : List Char) : Option Float :=
  match literal? (Blank.trim cs) with
  | some n => if n.nearest.isFinite then some n.nearest else none
  | none => none

end Wireboard.Reading
