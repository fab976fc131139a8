import Wireboard.Diagram.Basic

/-!
# Edits

The operations on a diagram as data, so that runs of them can be spoken about.  A refused edit
leaves the diagram as it was.
-/

namespace Wireboard

/-- An operation on a diagram. -/
inductive Edit (α : Type) where
  | add (layer : Layer) (p : Point α)
  | addNamed (name : String) (p : Point α)
  | remove (id : String)
  | rename (id new : String)
  | update (id name raw : String)
  | setParam (id name : String) (v : Param)
  | setPosition (id : String) (p : Point α)
  | setWidth (id : String) (w : α)
  | toggle (source target : String)
  | clear

/-- What an edit answers when it is not refused. -/
inductive Outcome (α : Type) where
  | node (n : Node α)
  | id (s : String)
  | param (v : Param)
  | toggled (t : Toggle)
  | done

namespace Diagram

variable {α : Type} [Scalar α]

/-- Carries out an edit. -/
def perform (d : Diagram α) : Edit α → Except (Refusal α) (Outcome α × Diagram α)
  | .add layer p => (d.add layer p).map fun (n, d) => (.node n, d)
  | .addNamed name p => (d.addNamed name p).map fun (n, d) => (.node n, d)
  | .remove id => (d.remove id).map fun (n, d) => (.node n, d)
  | .rename id new => (d.rename id new).map fun (s, d) => (.id s, d)
  | .update id name raw => (d.update id name raw).map fun (v, d) => (.param v, d)
  | .setParam id name v => (d.setParam id name v).map fun d => (.done, d)
  | .setPosition id p => (d.setPosition id p).map fun d => (.done, d)
  | .setWidth id w => (d.setWidth id w).map fun d => (.done, d)
  | .toggle source target => (d.toggle source target).map fun (t, d) => (.toggled t, d)
  | .clear => .ok (.done, d.clear)

/-- The diagram after an edit. -/
def step (d : Diagram α) (e : Edit α) : Diagram α :=
  match d.perform e with
  | .ok (_, d) => d
  | .error _ => d

/-- The diagram after a run of edits. -/
def run (d : Diagram α) (es : List (Edit α)) : Diagram α := es.foldl step d

end Diagram

end Wireboard
