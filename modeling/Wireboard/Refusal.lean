import Wireboard.Layer
import Wireboard.Point

/-!
# Refusals

Why an operation on a diagram is not carried out.
-/

namespace Wireboard

/-- The cause of a refusal. -/
inductive Refusal (α : Type) where
  | unknownLayer (name : String)
  | unavailable (layer : Layer)
  | unknownNode (id : String)
  | emptyId
  | duplicateId (id : String)
  | badPosition (p : Point α)
  | badWidth (w : α)
  | selfLink (id : String)
  /-- The supply holds no id that is not in use. -/
  | noFreshId
  deriving DecidableEq

namespace Refusal

/-- The message about a fault of geometry. -/
def geometryMessage (what : String) : String := "invalid geometry: " ++ what

/-- A point as it appears in messages. -/
def pointText (p : Point Float32) : String :=
  "Point \x7b x: " ++ Layout.exact.singleText p.x ++ ", y: " ++ Layout.exact.singleText p.y ++ " \x7d"

/-- The message that is shown. -/
def message : Refusal Float32 → String
  | unknownLayer name => "unknown node kind `" ++ name ++ "`"
  | unavailable layer => layer.title ++ " is not available yet"
  | unknownNode id => "node `" ++ id ++ "` not found"
  | emptyId => "node id must not be empty"
  | duplicateId id => "node id `" ++ id ++ "` is already in use"
  | badPosition p => geometryMessage ("node position " ++ pointText p)
  | badWidth w => geometryMessage ("node width " ++ Layout.display.singleText w)
  | selfLink id => "cannot connect node `" ++ id ++ "` to itself"
  | noFreshId => "no unused node id is left"

end Refusal

end Wireboard
