import Wireboard.Diagram.Basic
import Wireboard.Settings.Basic

/-!
# Pins

Every node has an input pin to the left of it and an output pin to the right of it, at one height.
This module says where they are and which of them a pointer is at.
-/

namespace Wireboard

/-- A side of a node that links end at or start from. -/
inductive Pin where
  | input | output
  deriving DecidableEq

/-- The place of a node's pin. -/
structure Anchor (α : Type) where
  node : String
  pin : Pin
  place : Point α
  deriving DecidableEq

namespace Settings

variable {α : Type} [Scalar α]

/-- The width of a node as far as it is known. -/
def widthOf (s : Settings α) (n : Node α) : α := n.width.getD s.fallbackWidth

/-- The place of a pin in graph coordinates. -/
def pinPlace (s : Settings α) (n : Node α) : Pin → Point α
  | .input => ⟨n.position.x - s.pinGap.x, n.position.y + s.pinGap.y⟩
  | .output => ⟨n.position.x + s.widthOf n + s.pinGap.x, n.position.y + s.pinGap.y⟩

/-- The pins of one side, in the order of the nodes, as they are on the screen. -/
def anchors (s : Settings α) (v : Viewport α) (pin : Pin) (nodes : List (Node α)) :
    List (Anchor α) :=
  nodes.map fun n => ⟨n.id, pin, v.toScreen (s.pinPlace n pin)⟩

/-- The graph point is on the node, its edges included, when nodes are `height` high. -/
def covers (s : Settings α) (n : Node α) (height : α) (g : Point α) : Bool :=
  decide (n.position.x ≤ g.x) && decide (g.x ≤ n.position.x + s.widthOf n) &&
    decide (n.position.y ≤ g.y) && decide (g.y ≤ n.position.y + height)

end Settings

namespace Anchor

variable {α : Type} [Scalar α]

/-- The anchor lies in the disc around `p`, its edge included, by comparison of squares. -/
def isWithin (p : Point α) (radius : α) (a : Anchor α) : Bool :=
  decide (p.distSq a.place ≤ radius * radius)

/-- The first anchor in the disc around `p`. -/
def firstWithin (p : Point α) (radius : α) (as : List (Anchor α)) : Option (Anchor α) :=
  as.find? (isWithin p radius)

/-- The better of the best anchor so far and the next one. -/
def nearer (p : Point α) (radius : α) (best : Option (Anchor α × α)) (a : Anchor α) :
    Option (Anchor α × α) :=
  if p.dist a.place < (best.map (·.2)).getD radius then some (a, p.dist a.place) else best

/-- The anchor nearest to `p` among those nearer than `radius`, and its distance.  Of anchors at one
distance the first counts. -/
def nearestWithin (p : Point α) (radius : α) (as : List (Anchor α)) : Option (Anchor α × α) :=
  as.foldl (nearer p radius) none

end Anchor

end Wireboard
