import Wireboard.Json.Parser
import Wireboard.Json.Record

/-!
# Dragged data

What the palette hands over when a layer is dragged: a JSON record with a field `type`, or `kind`,
that names the layer.  Other members are of no interest.
-/

namespace Wireboard

/-- The name of the layer in dragged data. -/
def draggedName? (raw : String) : Option String := do
  match ← Json.record? [["type", "kind"]] (← Json.parse? raw) with
  | [some name] => Json.string? name
  | _ => none

end Wireboard
