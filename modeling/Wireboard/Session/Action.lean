import Wireboard.Session.Editing

/-!
# Actions

The operations on a session as data, and the sessions that runs of them lead to.
-/

namespace Wireboard

/-- An operation on a session. -/
inductive Action (α : Type) where
  | press (e : Press α)
  | move (p : Point α)
  | release (p : Point α) (target : Target)
  | cancel
  | key (k : Key) (typing : Bool)
  | wheel (p : Point α) (delta : α)
  | zoomIn (p : Point α)
  | zoomOut (p : Point α)
  | resetView
  | drop (raw : String) (p : Point α)
  | dropLayer (l : Layer) (p : Point α)
  | add (l : Layer) (p : Point α)
  | rename (id new : String)
  | update (id name raw : String)
  | reportWidth (id : String) (w : α)
  | reportScreenWidth (id : String) (w : α)
  | toggle (source target : String)
  | remove (id : String)
  | deleteSelected
  | select (id : String)
  | clearSelection

/-- What an action answers. -/
inductive Reply where
  | nothing
  | flag (b : Bool)
  | made (id : Option String)
  | toggled (t : Option Toggle)
  deriving DecidableEq

namespace Session

variable {α : Type} [Scalar α]

/-- Carries out an action. -/
def perform (s : Session α) : Action α → Reply × Session α
  | .press e => (.nothing, s.press e)
  | .move p => (.nothing, s.move p)
  | .release p target => (.nothing, s.release p target)
  | .cancel => (.nothing, s.cancel)
  | .key k typing => (s.key k typing).map .flag id
  | .wheel p delta => (.nothing, s.wheel p delta)
  | .zoomIn p => (.nothing, s.zoomIn p)
  | .zoomOut p => (.nothing, s.zoomOut p)
  | .resetView => (.nothing, s.resetView)
  | .drop raw p => (s.drop raw p).map .made id
  | .dropLayer l p => (s.dropLayer l p).map .made id
  | .add l p => (s.add l p).map .made id
  | .rename node new => (s.rename node new).map .flag id
  | .update node name raw => (s.update node name raw).map .flag id
  | .reportWidth node w => (s.reportWidth node w).map .flag id
  | .reportScreenWidth node w => (s.reportScreenWidth node w).map .flag id
  | .toggle source target => (s.toggle source target).map .toggled id
  | .remove node => (s.remove node).map .flag id
  | .deleteSelected => s.deleteSelected.map .flag id
  | .select node => (s.select node).map .flag id
  | .clearSelection => (.nothing, s.clearSelection)

/-- The session after an action. -/
def step (s : Session α) (a : Action α) : Session α := (s.perform a).2

/-- The session after a run of actions. -/
def run (s : Session α) (as : List (Action α)) : Session α := as.foldl step s

/-- The answers of a run of actions. -/
def replies (s : Session α) : List (Action α) → List Reply
  | [] => []
  | a :: as => (s.perform a).1 :: (s.step a).replies as

/-! ### Input that comes with coordinates only -/

/-- A button goes down on whatever lies there. -/
def pressAt (s : Session α) (p : Point α) (button : Button) (ctrl : Bool) (radius height : α) :
    Session α :=
  s.press ⟨p, button, ctrl, s.targetAt p radius height⟩

/-- The button goes up over whatever lies there. -/
def releaseAt (s : Session α) (p : Point α) (radius height : α) : Session α :=
  s.release p (s.targetAt p radius height)

end Session

/-- The key whose text a window system reports: delete, backspace and escape by their control
characters. -/
def Key.ofText (t : String) : Key :=
  if t = "\x7f" then .delete
  else if t = "\x08" then .backspace
  else if t = "\x1b" then .escape
  else .other

end Wireboard
