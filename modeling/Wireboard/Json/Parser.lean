import Wireboard.Json.Basic
import Wireboard.Json.Quoted

/-!
# Reading JSON

The strict grammar, at any depth of nesting.  The readers below take a bound on the number of steps.
What stands between brackets costs one step more than its contents do and is two characters longer,
so a well-formed text has no more steps than characters and its length is bound enough.
-/

namespace Wireboard.Json

/-- A number: no leading zeros, digits on both sides of the point. -/
def number (cs : List Char) : Option (Literal × List Char) :=
  let (negative, cs) := match cs with
    | '-' :: cs => (true, cs)
    | cs => (false, cs)
  let (whole, cs) := Digit.read cs
  if whole.isEmpty || (whole.head? == some Digit.zero && whole.length != 1) then none
  else
    let (point, fraction, cs) := match cs with
      | '.' :: cs => let (ds, cs) := Digit.read cs; (true, ds, cs)
      | cs => (false, [], cs)
    if point && fraction.isEmpty then none
    else (Literal.readExponent cs).map fun (exponent, cs) =>
      (⟨negative, whole, fraction, exponent⟩, cs)

/-- A string after its opening quote. -/
def string (cs : List Char) : Option (Option String × List Char) :=
  (Quoted.body cs).map fun (s, cs) => (s.map String.ofList, cs)

mutual

/-- A value, with blanks in front of it allowed. -/
def value : Nat → List Char → Option (Json × List Char)
  | 0, _ => none
  | n + 1, cs =>
    match skip cs with
    | '{' :: cs =>
      match skip cs with
      | '}' :: cs => some (.obj [], cs)
      | cs => (members n cs).map fun (ms, cs) => (.obj ms, cs)
    | '[' :: cs =>
      match skip cs with
      | ']' :: cs => some (.arr [], cs)
      | cs => (items n cs).map fun (vs, cs) => (.arr vs, cs)
    | '"' :: cs => (string cs).map fun (s, cs) => (.str s, cs)
    | 't' :: 'r' :: 'u' :: 'e' :: cs => some (.bool true, cs)
    | 'f' :: 'a' :: 'l' :: 's' :: 'e' :: cs => some (.bool false, cs)
    | 'n' :: 'u' :: 'l' :: 'l' :: cs => some (.null, cs)
    | cs => (number cs).map fun (n, cs) => (.num n, cs)

/-- One item or more, and the closing bracket. -/
def items : Nat → List Char → Option (List Json × List Char)
  | 0, _ => none
  | n + 1, cs =>
    match value n cs with
    | none => none
    | some (v, cs) =>
      match skip cs with
      | ',' :: cs => (items n cs).map fun (vs, cs) => (v :: vs, cs)
      | ']' :: cs => some ([v], cs)
      | _ => none

/-- One member or more, and the closing brace. -/
def members : Nat → List Char → Option (List (Option String × Json) × List Char)
  | 0, _ => none
  | n + 1, cs =>
    match skip cs with
    | '"' :: cs =>
      match string cs with
      | none => none
      | some (k, cs) =>
        match skip cs with
        | ':' :: cs =>
          match value n cs with
          | none => none
          | some (v, cs) =>
            match skip cs with
            | ',' :: cs => (members n cs).map fun (ms, cs) => ((k, v) :: ms, cs)
            | '}' :: cs => some ([(k, v)], cs)
            | _ => none
        | _ => none
    | _ => none

end

/-- The value that a text is, with nothing but blanks around it. -/
def parse? (s : String) : Option Json :=
  let cs := s.toList
  match value (cs.length + 1) cs with
  | some (v, rest) => if (skip rest).isEmpty then some v else none
  | none => none

end Wireboard.Json
