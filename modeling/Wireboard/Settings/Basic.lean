import Wireboard.Layer
import Wireboard.Viewport

/-!
# Settings

The measures of the canvas that a host may change.
-/

namespace Wireboard

/-- Measures of the canvas. -/
structure Settings (α : Type) where
  /-- Bounds of the zoom scale. -/
  minScale : α
  maxScale : α
  /-- The change of scale for a unit of wheel movement. -/
  wheelGain : α
  /-- The factor of the zoom controls. -/
  zoomStep : α
  /-- How near, on the screen, a link being drawn must come to an input to snap to it. -/
  snapRadius : α
  /-- The pins' distance from a node's sides and from its top. -/
  pinGap : Point α
  /-- The width of nodes that have not been drawn yet. -/
  fallbackWidth : α
  /-- Where on a new node, from its top left corner, the drop point is to be. -/
  dropGrip : Point α
  /-- The layers that cannot be dropped. -/
  disabled : List Layer
  deriving DecidableEq

namespace Settings

variable {α : Type} [Scalar α]

/-- The settings of a canvas that nobody has changed. -/
def initial : Settings α where
  minScale := 0.1
  maxScale := 3.0
  wheelGain := 0.001
  zoomStep := 1.2
  snapRadius := 30.0
  pinGap := ⟨8.0, 50.0⟩
  fallbackWidth := 270.0
  dropGrip := ⟨60.0, 50.0⟩
  disabled := []

/-- `x` if it is finite and above `least`, else `fallback`. -/
def above (least fallback x : α) : α :=
  if Scalar.isFinite x && decide (least < x) then x else fallback

/-- Scale bounds that are positive and in order, and a zoom step above one; what is not so is
replaced by its initial value, and bounds the wrong way round change places. -/
def repaired (s : Settings α) : Settings α :=
  let lo := above 0.0 0.1 s.minScale
  let hi := above 0.0 3.0 s.maxScale
  { s with
    minScale := if hi < lo then hi else lo
    maxScale := if hi < lo then lo else hi
    zoomStep := above 1.0 1.2 s.zoomStep }

/-- The layer can be dropped. -/
def isEnabled (s : Settings α) (l : Layer) : Bool := !s.disabled.contains l

end Settings

end Wireboard
