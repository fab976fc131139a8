import Wireboard.Point

/-!
# Gestures

What the pointer is doing between press and release.  A gesture refers to nodes by id, and follows
when they are renamed.
-/

namespace Wireboard

/-- The segment that is drawn while a link is being made, in screen coordinates. -/
structure Preview (α : Type) where
  start : Point α
  stop : Point α
  snapped : Bool
  deriving DecidableEq

/-- The gesture in progress. -/
inductive Gesture (α : Type) where
  | idle
  /-- The canvas is being moved: where it was pressed, and the offset at that moment. -/
  | panning (anchor origin : Point α)
  /-- A node is being moved: where on the node it was taken, where on the screen it was pressed, and
  whether the pointer has left that place since. -/
  | dragging (node : String) (grab press : Point α) (moved : Bool)
  /-- A link is being drawn, and would end at the input of `snap`. -/
  | wiring (source : String) (preview : Option (Preview α)) (snap : Option String)
  deriving DecidableEq

namespace Gesture

variable {α : Type}

/-- No gesture is in progress. -/
def isIdle : Gesture α → Bool
  | idle => true
  | _ => false

/-- The gesture refers to the node. -/
def refersTo (g : Gesture α) (id : String) : Bool :=
  match g with
  | dragging node _ _ _ => node == id
  | wiring source _ snap => source == id || snap == some id
  | _ => false

/-- The gesture after the node `old` is called `new`. -/
def rename (old new : String) : Gesture α → Gesture α
  | dragging node grab press moved =>
    dragging (if node = old then new else node) grab press moved
  | wiring source preview snap =>
    wiring (if source = old then new else source) preview
      (if snap = some old then some new else snap)
  | g => g

/-- The node that is being moved. -/
def dragged? : Gesture α → Option String
  | dragging node _ _ _ => some node
  | _ => none

/-- The node that a link is being drawn from. -/
def source? : Gesture α → Option String
  | wiring source _ _ => some source
  | _ => none

/-- The node that the link being drawn would go to. -/
def snap? : Gesture α → Option String
  | wiring _ _ snap => snap
  | _ => none

/-- The segment that is drawn. -/
def preview? : Gesture α → Option (Preview α)
  | wiring _ preview _ => preview
  | _ => none

end Gesture

end Wireboard
