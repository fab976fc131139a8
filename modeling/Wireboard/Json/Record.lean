import Wireboard.Json.Number

/-!
# Decoding

How values of the board's own types are found in JSON trees.  A record is an object with its fields
in any order and unknown members among them, or a list of exactly its fields in order.
-/

namespace Wireboard.Json

/-- The members of an object, provided that every name stands for a text. -/
def named? (members : List (Option String × Json)) : Option (List (String × Json)) :=
  members.mapM fun m => m.1.map (·, m.2)

/-- The member that answers to one of the names: absent, or present once.  Two are a fault. -/
def field? (names : List String) (members : List (String × Json)) : Option (Option Json) :=
  match members.filter fun m => names.contains m.1 with
  | [] => some none
  | [m] => some (some m.2)
  | _ => none

/-- The fields of a record, each under any of its names.  Fields that are absent are `none`; a list
may break off before its last fields. -/
def record? (fields : List (List String)) : Json → Option (List (Option Json))
  | .obj members => do fields.mapM (field? · (← named? members))
  | .arr items =>
    if items.length ≤ fields.length then
      some (items.map some ++ List.replicate (fields.length - items.length) none)
    else none
  | _ => none

/-- A string that stands for a text. -/
def string? : Json → Option String
  | .str s => s
  | _ => none

/-- A list of values, each decoded by `f`. -/
def list? {β : Type} (f : Json → Option β) : Json → Option (List β)
  | .arr items => items.mapM f
  | _ => none

/-- A single. -/
def toSingle? : Json → Option Float32
  | .num n => single? n
  | _ => none

/-- A double. -/
def toDouble? : Json → Option Float
  | .num n => double? n
  | _ => none

end Wireboard.Json
