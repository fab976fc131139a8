import Wireboard.Session.Basic

/-!
# The pointer

A press begins a gesture, moves carry it on, a release ends it.
-/

namespace Wireboard

/-- A pointer button. -/
inductive Button where
  | primary | middle | secondary | other
  deriving DecidableEq

/-- A button going down. -/
structure Press (α : Type) where
  place : Point α
  button : Button
  ctrl : Bool
  target : Target
  deriving DecidableEq

namespace Session

variable {α : Type} [Scalar α]

/-- The session while the canvas is being moved. -/
def startPanning (s : Session α) (p : Point α) : Session α :=
  { s with gesture := .panning p s.viewport.offset }

/-- The session while a node is being moved, if there is such a node. -/
def startDragging (s : Session α) (id : String) (p : Point α) : Session α :=
  match s.diagram.node? id with
  | some n => { s with gesture := .dragging id (s.viewport.toGraph p - n.position) p false }
  | none => s

/-- The session while a link is being drawn from a node, if there is such a node. -/
def startWiring (s : Session α) (id : String) (p : Point α) : Session α :=
  match s.previewTo id p with
  | some (preview, snap) => { s with gesture := .wiring id (some preview) snap }
  | none => s

/-- A button goes down.  During a gesture, and at places that are not finite, this means nothing. -/
def press (s : Session α) (e : Press α) : Session α :=
  if !s.gesture.isIdle || !e.place.isFinite then s
  else match e.button, e.target with
    | .middle, .canvas => s.startPanning e.place
    | .primary, .canvas =>
      if e.ctrl then s.startPanning e.place else { s with selection := .none }
    | .primary, .body id => s.startDragging id e.place
    | .primary, .output id => s.startWiring id e.place
    | _, _ => s

/-- The pointer moves.  Places that are not finite mean nothing. -/
def move (s : Session α) (p : Point α) : Session α :=
  if !p.isFinite then s
  else match s.gesture with
    | .idle => s
    | .panning anchor origin =>
      { s with viewport := s.viewport.place (origin + (p - anchor)) s.viewport.scale }
    | .dragging id grab press moved =>
      match s.diagram.setPosition id (s.viewport.toGraph p - grab) with
      | .ok d => { s with diagram := d, gesture := .dragging id grab press (moved || p != press) }
      | .error _ => { s with gesture := .idle }
    | .wiring source _ _ =>
      match s.previewTo source p with
      | some (preview, snap) => { s with gesture := .wiring source (some preview) snap }
      | none => { s with gesture := .idle }

/-- The diagram after a link that is drawn from `source` is let go over `target` at `p`: over an
input, the link to the node that it snaps to there is toggled. -/
def finishWiring (s : Session α) (source : String) (p : Point α) (target : Target) : Diagram α :=
  match target with
  | .input _ =>
    match (if p.isFinite then s.previewTo source p else none) with
    | some (_, some snap) =>
      match s.diagram.toggle source snap with
      | .ok (_, d) => d
      | .error _ => s.diagram
    | _ => s.diagram
  | _ => s.diagram

/-- The button goes up, and the gesture is over.  A node that was not moved is selected. -/
def release (s : Session α) (p : Point α) (target : Target) : Session α :=
  match s.gesture with
  | .dragging id _ _ false =>
    if s.diagram.isLive id then { s with gesture := .idle, selection := .only id }
    else { s with gesture := .idle }
  | .wiring source _ _ =>
    { s with gesture := .idle, diagram := s.finishWiring source p target }
  | _ => { s with gesture := .idle }

/-- The gesture is abandoned. -/
def cancel (s : Session α) : Session α := { s with gesture := .idle }

end Session

end Wireboard
