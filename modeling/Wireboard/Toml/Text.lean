import Wireboard.Text.Hex

/-!
# Keys and strings of TOML

Readers for what TOML writes between quotes, for keys, and for the ends of lines.
-/

namespace Wireboard.Toml

/-- Space and tab. -/
def isGap (c : Char) : Bool := c == ' ' || c == '\t'

/-- Drops leading spaces and tabs. -/
def skip (cs : List Char) : List Char := cs.dropWhile isGap

/-- The character may stand in a comment: no control but the tab. -/
def isVisible (c : Char) : Bool := c == '\t' || (0x20 ≤ c.toNat && c.toNat != 0x7F)

/-- The rest after a line break. -/
def newline? : List Char → Option (List Char)
  | '\n' :: cs => some cs
  | '\r' :: '\n' :: cs => some cs
  | _ => none

/-- Drops a comment. -/
def skipComment : List Char → List Char
  | '#' :: cs => cs.dropWhile isVisible
  | cs => cs

/-- The next line, when nothing but blanks and a comment is left on this one. -/
def lineEnd? (cs : List Char) : Option (List Char) :=
  match skipComment (skip cs) with
  | [] => some []
  | cs => newline? cs

/-! ### Strings -/

/-- Puts a character in front of a string that has been read. -/
def push (c : Char) (r : Option (List Char × List Char)) : Option (List Char × List Char) :=
  r.map fun (s, rest) => (c :: s, rest)

/-- The character with the given code point. -/
def scalar? (cs : List Char) : Option Char :=
  match hexNumber? cs with
  | some n => if n.isValidChar then some (Char.ofNat n) else none
  | none => none

/-- Puts the character with the given code point in front of a string that has been read. -/
def pushScalar (cs : List Char) (r : Option (List Char × List Char)) :
    Option (List Char × List Char) :=
  match scalar? cs with
  | some c => push c r
  | none => none

/-- The character that an escape of one letter names. -/
def simple? (c : Char) : Option Char :=
  match c with
  | '"' => some '"'
  | '\\' => some '\\'
  | 'b' => some '\x08'
  | 'f' => some '\x0c'
  | 'n' => some '\n'
  | 'r' => some '\r'
  | 't' => some '\t'
  | _ => none

/-- A string on one line, after its opening quote. -/
def basic : List Char → Option (List Char × List Char)
  | [] => none
  | '"' :: r => some ([], r)
  | '\\' :: 'u' :: a :: b :: c :: d :: r => pushScalar [a, b, c, d] (basic r)
  | '\\' :: 'U' :: a :: b :: c :: d :: e :: f :: g :: h :: r =>
    pushScalar [a, b, c, d, e, f, g, h] (basic r)
  | '\\' :: e :: r =>
    match simple? e with
    | some c => push c (basic r)
    | none => none
  | c :: r => if isVisible c && c != '\\' then push c (basic r) else none

/-- A string on one line without escapes, after its opening quote. -/
def literal : List Char → Option (List Char × List Char)
  | [] => none
  | '\'' :: r => some ([], r)
  | c :: r => if isVisible c then push c (literal r) else none

/-- Where a string over several lines stands: in its text, after a backslash that must end its line,
or in the blanks that such a backslash swallows. -/
inductive Spot where
  | text | gap | trim
  deriving DecidableEq

/-- A string over several lines, after its opening quotes.  One or two quotes are text, also right
before the three that close it. -/
def multiBasic : Spot → List Char → Option (List Char × List Char)
  | _, [] => none
  | .gap, ' ' :: r => multiBasic .gap r
  | .gap, '\t' :: r => multiBasic .gap r
  | .gap, '\n' :: r => multiBasic .trim r
  | .gap, '\r' :: '\n' :: r => multiBasic .trim r
  | .gap, _ => none
  | .trim, ' ' :: r => multiBasic .trim r
  | .trim, '\t' :: r => multiBasic .trim r
  | .trim, '\n' :: r => multiBasic .trim r
  | .trim, '\r' :: '\n' :: r => multiBasic .trim r
  | _, '"' :: '"' :: '"' :: '"' :: '"' :: r => some (['"', '"'], r)
  | _, '"' :: '"' :: '"' :: '"' :: r => some (['"'], r)
  | _, '"' :: '"' :: '"' :: r => some ([], r)
  | _, '\\' :: 'u' :: a :: b :: c :: d :: r => pushScalar [a, b, c, d] (multiBasic .text r)
  | _, '\\' :: 'U' :: a :: b :: c :: d :: e :: f :: g :: h :: r =>
    pushScalar [a, b, c, d, e, f, g, h] (multiBasic .text r)
  | _, '\\' :: ' ' :: r => multiBasic .gap r
  | _, '\\' :: '\t' :: r => multiBasic .gap r
  | _, '\\' :: '\n' :: r => multiBasic .trim r
  | _, '\\' :: '\r' :: '\n' :: r => multiBasic .trim r
  | _, '\\' :: e :: r =>
    match simple? e with
    | some c => push c (multiBasic .text r)
    | none => none
  | _, '\n' :: r => push '\n' (multiBasic .text r)
  | _, '\r' :: '\n' :: r => push '\n' (multiBasic .text r)
  | _, c :: r => if isVisible c && c != '\\' then push c (multiBasic .text r) else none

/-- A string over several lines without escapes, after its opening quotes. -/
def multiLiteral : List Char → Option (List Char × List Char)
  | [] => none
  | '\'' :: '\'' :: '\'' :: '\'' :: '\'' :: r => some (['\'', '\''], r)
  | '\'' :: '\'' :: '\'' :: '\'' :: r => some (['\''], r)
  | '\'' :: '\'' :: '\'' :: r => some ([], r)
  | '\n' :: r => push '\n' (multiLiteral r)
  | '\r' :: '\n' :: r => push '\n' (multiLiteral r)
  | c :: r => if isVisible c then push c (multiLiteral r) else none

/-- Drops a line break. -/
def skipNewline (cs : List Char) : List Char := (newline? cs).getD cs

/-- A string of any of the four kinds. -/
def string? : List Char → Option (List Char × List Char)
  | '"' :: '"' :: '"' :: r => multiBasic .text (skipNewline r)
  | '"' :: r => basic r
  | '\'' :: '\'' :: '\'' :: r => multiLiteral (skipNewline r)
  | '\'' :: r => literal r
  | _ => none

/-! ### Keys -/

/-- The character may stand in a key without quotes. -/
def isBare (c : Char) : Bool := c.isAlphanum || c == '_' || c == '-'

/-- A key without dots. -/
def simpleKey? : List Char → Option (String × List Char)
  | '"' :: r => (basic r).map fun (s, r) => (.ofList s, r)
  | '\'' :: r => (literal r).map fun (s, r) => (.ofList s, r)
  | cs =>
    match cs.takeWhile isBare with
    | [] => none
    | s => some (.ofList s, cs.dropWhile isBare)

/-- A key of at most `n` parts, with blanks around them allowed.  The answer has the leading parts,
the last one, and the rest of the text. -/
def key? : Nat → List Char → Option (List String × String × List Char)
  | 0, _ => none
  | n + 1, cs =>
    match simpleKey? (skip cs) with
    | none => none
    | some (k, r) =>
      match skip r with
      | '.' :: r => (key? n r).map fun (path, last, r) => (k :: path, last, r)
      | r => some ([], k, r)

end Wireboard.Toml
