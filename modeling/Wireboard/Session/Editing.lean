import Wireboard.Drop
import Wireboard.Session.Pointer

/-!
# Editing

What is done to a session without the pointer: zooming, dropping new nodes, changing and removing
nodes, keys.  An operation that is refused leaves the session as it was.
-/

namespace Wireboard

/-- The keys that a session answers to. -/
inductive Key where
  | delete | backspace | escape | other
  deriving DecidableEq

namespace Session

variable {α : Type} [Scalar α]

/-! ### The view -/

/-- The wheel turns; away from the user zooms in. -/
def wheel (s : Session α) (p : Point α) (delta : α) : Session α :=
  { s with viewport := s.viewport.zoomAt p (-delta * s.settings.wheelGain) }

/-- One step nearer. -/
def zoomIn (s : Session α) (p : Point α) : Session α :=
  { s with viewport := s.viewport.zoomBy p s.settings.zoomStep }

/-- One step away. -/
def zoomOut (s : Session α) (p : Point α) : Session α :=
  { s with viewport := s.viewport.zoomBy p (1.0 / s.settings.zoomStep) }

/-- Back to the untransformed view. -/
def resetView (s : Session α) : Session α := { s with viewport := s.viewport.reset }

/-! ### New nodes -/

/-- Adds a node at a graph point and answers with its id. -/
def add (s : Session α) (l : Layer) (p : Point α) : Option String × Session α :=
  match s.diagram.add l p with
  | .ok (n, d) => (some n.id, { s with diagram := d })
  | .error _ => (none, s)

/-- Adds a node where its layer is dropped on the screen, unless the layer is disabled. -/
def dropLayer (s : Session α) (l : Layer) (p : Point α) : Option String × Session α :=
  if s.settings.isEnabled l then s.add l (s.viewport.toGraph (p - s.settings.dropGrip))
  else (none, s)

/-- Adds a node where dragged data are dropped on the screen. -/
def drop (s : Session α) (raw : String) (p : Point α) : Option String × Session α :=
  match (draggedName? raw).bind Layer.ofName? with
  | some l => s.dropLayer l p
  | none => (none, s)

/-! ### Changes -/

/-- Renames a node; selection and gesture follow. -/
def rename (s : Session α) (id new : String) : Bool × Session α :=
  match s.diagram.rename id new with
  | .ok (name, d) =>
    (true, { s with
      diagram := d
      selection := s.selection.rename id name
      gesture := s.gesture.rename id name })
  | .error _ => (false, s)

/-- Stores a typed text as the value of a parameter. -/
def update (s : Session α) (id name raw : String) : Bool × Session α :=
  match s.diagram.update id name raw with
  | .ok (_, d) => (true, { s with diagram := d })
  | .error _ => (false, s)

/-- Records the width that a node is drawn with. -/
def reportWidth (s : Session α) (id : String) (w : α) : Bool × Session α :=
  match s.diagram.setWidth id w with
  | .ok d => (true, { s with diagram := d })
  | .error _ => (false, s)

/-- Records the width that a node has on the screen. -/
def reportScreenWidth (s : Session α) (id : String) (w : α) : Bool × Session α :=
  s.reportWidth id (w / s.viewport.scale)

/-- Removes the link if it is there and adds it otherwise. -/
def toggle (s : Session α) (source target : String) : Option Toggle × Session α :=
  match s.diagram.toggle source target with
  | .ok (t, d) => (some t, { s with diagram := d })
  | .error _ => (none, s)

/-- Removes a node.  A selection of it is dropped, and a gesture that refers to it is over. -/
def remove (s : Session α) (id : String) : Bool × Session α :=
  match s.diagram.remove id with
  | .ok (_, d) =>
    (true, { s with
      diagram := d
      selection := s.selection.forget id
      gesture := if s.gesture.refersTo id then .idle else s.gesture })
  | .error _ => (false, s)

/-! ### The selection -/

/-- Removes the selected node. -/
def deleteSelected (s : Session α) : Bool × Session α :=
  match s.selection.id with
  | some id => { s with selection := .none }.remove id
  | none => (false, s)

/-- Selects a node. -/
def select (s : Session α) (id : String) : Bool × Session α :=
  if s.diagram.isLive id then (true, { s with selection := .only id }) else (false, s)

/-- Selects nothing. -/
def clearSelection (s : Session α) : Session α := { s with selection := .none }

/-! ### Keys -/

/-- A key goes down; `typing` says that a text editor has the focus.  The answer says whether the
key was of use. -/
def key (s : Session α) (k : Key) (typing : Bool) : Bool × Session α :=
  match k with
  | .escape => if s.gesture.isIdle then (false, s) else (true, s.cancel)
  | .delete | .backspace => if typing then (false, s) else s.deleteSelected
  | .other => (false, s)

end Session

end Wireboard
