import Wireboard.Json.Basic
import Wireboard.Json.Quoted

/-!
# Writing JSON

Two forms: compact, without a blank, and pretty, with a line for each item or member and two
spaces for each level.
-/

namespace Wireboard.Json

/-- How a value is spread over lines. -/
inductive Form where
  | compact | pretty
  deriving DecidableEq

/-- The start of a line at the given level. -/
def Form.line : Form → Nat → List Char
  | .compact, _ => []
  | .pretty, level => '\n' :: List.replicate (2 * level) ' '

/-- What stands between a name and its value. -/
def Form.colon : Form → List Char
  | .compact => [':']
  | .pretty => [':', ' ']

/-- A string; one that stands for no text is written as half of a surrogate pair again. -/
def stringText : Option String → List Char
  | some s => Quoted.encode s.toList
  | none => "\"\\ud800\"".toList

mutual

/-- A value at the given level. -/
def render (f : Form) (level : Nat) : Json → List Char
  | .null => "null".toList
  | .bool true => "true".toList
  | .bool false => "false".toList
  | .num n => n.text
  | .str s => stringText s
  | .arr [] => ['[', ']']
  | .arr (v :: vs) =>
    '[' :: (f.line (level + 1) ++ render f (level + 1) v ++ renderItems f (level + 1) vs ++
      f.line level ++ [']'])
  | .obj [] => ['{', '}']
  | .obj ((k, v) :: ms) =>
    '{' :: (f.line (level + 1) ++ stringText k ++ f.colon ++ render f (level + 1) v ++
      renderMembers f (level + 1) ms ++ f.line level ++ ['}'])

/-- Further items, each after a comma and on a line of its own. -/
def renderItems (f : Form) (level : Nat) : List Json → List Char
  | [] => []
  | v :: vs => ',' :: (f.line level ++ render f level v ++ renderItems f level vs)

/-- Further members, each after a comma and on a line of its own. -/
def renderMembers (f : Form) (level : Nat) : List (Option String × Json) → List Char
  | [] => []
  | (k, v) :: ms =>
    ',' :: (f.line level ++ stringText k ++ f.colon ++ render f level v ++
      renderMembers f level ms)

end

/-- The text of a value. -/
def print (f : Form) (v : Json) : String := .ofList (render f 0 v)

end Wireboard.Json
