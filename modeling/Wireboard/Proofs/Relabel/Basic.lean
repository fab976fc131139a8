import Mathlib.Logic.Equiv.Basic
import Wireboard.Session.Action

/-!
# Other ids

`x.relabel π` is `x` with `π id` in the place of every id that it mentions: of nodes, at the ends of
links, in selection and gesture, in what lies under a pointer, in refusals, and in actions.  Nothing
else changes, the supply of ids to come included.
-/

namespace Wireboard

variable {α : Type} (π ρ : Equiv.Perm String)

/-! ## the board -/

def Node.relabel (n : Node α) : Node α := { n with id := π n.id }

def Link.relabel (l : Link) : Link := ⟨π l.source, π l.target⟩

def Diagram.relabel (d : Diagram α) : Diagram α :=
  { d with nodes := d.nodes.map (·.relabel π), links := d.links.map (·.relabel π) }

def Anchor.relabel (a : Anchor α) : Anchor α := { a with node := π a.node }

def Selection.relabel (s : Selection) : Selection := ⟨s.id.map π⟩

def Gesture.relabel : Gesture α → Gesture α
  | idle => idle
  | panning anchor origin => panning anchor origin
  | dragging node grab press moved => dragging (π node) grab press moved
  | wiring source preview snap => wiring (π source) preview (snap.map π)

def Session.relabel (s : Session α) : Session α :=
  { s with
    diagram := s.diagram.relabel π
    gesture := s.gesture.relabel π
    selection := s.selection.relabel π }

def Refusal.relabel : Refusal α → Refusal α
  | unknownNode id => unknownNode (π id)
  | duplicateId id => duplicateId (π id)
  | selfLink id => selfLink (π id)
  | x => x

/-- The result of an operation, of which `f` is the relabelling. -/
def relabelResult {β : Type} (f : β → β) : Except (Refusal α) β → Except (Refusal α) β
  | .ok b => .ok (f b)
  | .error x => .error (x.relabel π)

/-! ## actions and answers -/

def Target.relabel : Target → Target
  | canvas => canvas
  | body id => body (π id)
  | control id => control (π id)
  | input id => input (π id)
  | output id => output (π id)

def Press.relabel (e : Press α) : Press α := { e with target := e.target.relabel π }

def Action.relabel : Action α → Action α
  | press e => press (e.relabel π)
  | release p target => release p (target.relabel π)
  | rename id new => rename (π id) (π new)
  | update id name raw => update (π id) name raw
  | reportWidth id w => reportWidth (π id) w
  | reportScreenWidth id w => reportScreenWidth (π id) w
  | toggle source target => toggle (π source) (π target)
  | remove id => remove (π id)
  | select id => select (π id)
  | a => a

def Reply.relabel : Reply → Reply
  | made id => made (id.map π)
  | r => r

/-- The action gives no node an id, neither a new one from the supply nor one that is typed. -/
def Action.givesNoId : Action α → Bool
  | drop .. | dropLayer .. | add .. | rename .. => false
  | _ => true

/-! ## one relabelling after another -/

theorem Diagram.relabel_relabel (d : Diagram α) :
    (d.relabel π).relabel ρ = d.relabel (π.trans ρ) := by
  simp only [Diagram.relabel, List.map_map]
  rfl

theorem Selection.relabel_relabel (s : Selection) :
    (s.relabel π).relabel ρ = s.relabel (π.trans ρ) := by
  simp only [Selection.relabel, Option.map_map]
  rfl

theorem Gesture.relabel_relabel (g : Gesture α) :
    (g.relabel π).relabel ρ = g.relabel (π.trans ρ) := by
  cases g with
  | wiring source preview snap =>
    simp only [Gesture.relabel, Option.map_map]
    rfl
  | _ => rfl

theorem Session.relabel_relabel (s : Session α) :
    (s.relabel π).relabel ρ = s.relabel (π.trans ρ) := by
  simp only [Session.relabel, Diagram.relabel_relabel, Selection.relabel_relabel,
    Gesture.relabel_relabel]

theorem Diagram.relabel_refl (d : Diagram α) : d.relabel (Equiv.refl String) = d := by
  have hnodes : d.nodes.map (·.relabel (Equiv.refl String)) = d.nodes := List.map_id d.nodes
  have hlinks : d.links.map (·.relabel (Equiv.refl String)) = d.links := List.map_id d.links
  simp only [Diagram.relabel, hnodes, hlinks]

theorem Session.relabel_refl (s : Session α) : s.relabel (Equiv.refl String) = s := by
  have hgesture : s.gesture.relabel (Equiv.refl String) = s.gesture := by
    rcases s.gesture with _ | _ | _ | ⟨source, preview, _ | t⟩ <;> rfl
  have hselection : s.selection.relabel (Equiv.refl String) = s.selection := by
    rcases s.selection with ⟨_ | id⟩ <;> rfl
  simp only [Session.relabel, Diagram.relabel_refl, hgesture, hselection]

end Wireboard
