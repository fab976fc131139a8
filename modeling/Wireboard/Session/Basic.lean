import Wireboard.Gesture
import Wireboard.Pin
import Wireboard.Selection

/-!
# Sessions

A session is a diagram that is being worked on: how it is seen, what is selected, and the gesture in
progress.
-/

namespace Wireboard

/-- A diagram being worked on. -/
structure Session (α : Type) where
  settings : Settings α
  diagram : Diagram α
  viewport : Viewport α
  gesture : Gesture α
  selection : Selection
  deriving DecidableEq

/-- What lies under the pointer. -/
inductive Target where
  | canvas
  | body (id : String)
  /-- An editor on a node, which keeps the pointer to itself. -/
  | control (id : String)
  | input (id : String)
  | output (id : String)
  deriving DecidableEq

namespace Session

variable {α : Type} [Scalar α]

/-- A session on a diagram under the settings, repaired.  There would be none if the scale bounds
were no numbers. -/
def open? (settings : Settings α) (d : Diagram α) : Option (Session α) :=
  let settings := settings.repaired
  (Viewport.ofBounds? settings.minScale settings.maxScale).map fun v =>
    ⟨settings, d, v, .idle, .none⟩

/-! ### What is where -/

/-- The pin under a screen point: the outputs first, then the inputs, each in the order of the
nodes. -/
def pinAt (s : Session α) (p : Point α) (radius : α) : Option (Anchor α) :=
  Anchor.firstWithin p radius
    (s.settings.anchors s.viewport .output s.diagram.nodes ++
      s.settings.anchors s.viewport .input s.diagram.nodes)

/-- The uppermost node under a screen point, when nodes are `height` high. -/
def bodyAt (s : Session α) (p : Point α) (height : α) : Option (Node α) :=
  s.diagram.nodes.reverse.find? fun n => s.settings.covers n height (s.viewport.toGraph p)

/-- What lies under a screen point: pins before bodies, and bodies before the canvas. -/
def targetAt (s : Session α) (p : Point α) (radius height : α) : Target :=
  match s.pinAt p radius with
  | some ⟨id, .input, _⟩ => .input id
  | some ⟨id, .output, _⟩ => .output id
  | none =>
    match s.bodyAt p height with
    | some n => .body n.id
    | none => .canvas

/-- The segment from the output of `source` to the nearest input of another node in snapping
distance of `p`, or else to `p`, and the node that it snaps to. -/
def previewTo (s : Session α) (source : String) (p : Point α) :
    Option (Preview α × Option String) :=
  (s.diagram.node? source).map fun n =>
    let start := s.viewport.toScreen (s.settings.pinPlace n .output)
    let others := s.diagram.nodes.filter (·.id != source)
    match Anchor.nearestWithin p s.settings.snapRadius
        (s.settings.anchors s.viewport .input others) with
    | some (a, _) => (⟨start, a.place, true⟩, some a.node)
    | none => (⟨start, p, false⟩, none)

end Session

end Wireboard
