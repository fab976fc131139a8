import Wireboard.Number.Literal

/-!
# JSON values

A JSON text as a tree that keeps what was written: numbers stay literals, members stay in order
and may share a name.  What a number or a repeated name means is decided when the tree is decoded.
-/

namespace Wireboard

/-- A JSON value.  A string is `none` when an escape in it names half of a surrogate pair: such a
string is well formed but stands for no text. -/
inductive Json where
  | null
  | bool (b : Bool)
  | num (n : Literal)
  | str (s : Option String)
  | arr (items : List Json)
  | obj (members : List (Option String × Json))

namespace Json

/-- A string value. -/
def text (s : String) : Json := .str (some s)

/-- An object with the given members. -/
def object (members : List (String × Json)) : Json :=
  .obj (members.map fun m => (some m.1, m.2))

/-- The blanks of JSON: space, tab, line feed, carriage return. -/
def isGap (c : Char) : Bool := c == ' ' || c == '\t' || c == '\n' || c == '\r'

/-- Drops leading blanks. -/
def skip (cs : List Char) : List Char := cs.dropWhile isGap

end Json

end Wireboard
