import Wireboard.Json.Record
import Wireboard.Number.Layout
import Wireboard.Number.Reading
import Wireboard.Text.Word

/-!
# Parameters

The values that a layer's parameters hold, the text that an inline editor shows for them, and what
an edited text is stored as.
-/

namespace Wireboard

/-- The value of a parameter. -/
inductive Param where
  | flag (b : Bool)
  | number (x : Float)
  | text (s : String)
  | sequence (xs : List Float)
  deriving DecidableEq

namespace Param

/-- The value as a flag. -/
def flag? : Param → Option Bool
  | flag b => some b
  | _ => none

/-- The value as a number. -/
def number? : Param → Option Float
  | number x => some x
  | _ => none

/-- The value as a text. -/
def text? : Param → Option String
  | text s => some s
  | _ => none

/-- The value as a sequence. -/
def sequence? : Param → Option (List Float)
  | sequence xs => some xs
  | _ => none

/-- What an inline editor shows. -/
def display : Param → String
  | flag true => "true"
  | flag false => "false"
  | number x => Layout.display.doubleText x
  | text s => s
  | sequence xs => ", ".intercalate (xs.map Layout.display.doubleText)

/-! ### Edits -/

/-- Parameters whose name has `Shape` in it hold sequences. -/
def isShapeName (name : String) : Bool := hasWord "Shape".toList name.toList

/-- The finite numbers among the fields between commas; other fields are dropped. -/
def readSequence (cs : List Char) : List Float := (cs.splitOn ',').filterMap Reading.number?

/-- `true` and `false`, blanks aside. -/
def readFlag? (raw : String) : Option Bool :=
  if trimmed raw = "true" then some true
  else if trimmed raw = "false" then some false
  else none

/-- What the parameter `name` stores when `raw` is typed and `current` was its value: a sequence
under a shape name, else a number if `raw` is one, else a flag if it was one and `raw` is one, else
the text as typed. -/
def coerce (name raw : String) (current : Option Param) : Param :=
  if isShapeName name then sequence (readSequence raw.toList)
  else match Reading.number? raw.toList with
    | some x => number x
    | none =>
      match current, readFlag? raw with
      | some (flag _), some b => flag b
      | _, _ => text raw

/-! ### JSON -/

/-- A double; what is not finite becomes `null`. -/
def doubleJson (x : Float) : Json :=
  match Layout.jsonDouble.double? x with
  | some n => .num n
  | none => .null

/-- The value in JSON, without a mark of its shape. -/
def toJson : Param → Json
  | flag b => .bool b
  | number x => doubleJson x
  | text s => Json.text s
  | sequence xs => .arr (xs.map doubleJson)

/-- The value that a JSON tree stands for; its shape is found by its JSON type. -/
def ofJson? : Json → Option Param
  | .bool b => some (flag b)
  | .num n => (Json.double? n).map number
  | .str s => s.map text
  | .arr items => (items.mapM Json.toDouble?).map sequence
  | _ => none

end Param

end Wireboard
