import Wireboard.Proofs.Relabel.Diagram
import Wireboard.Proofs.Session.Steps

/-!
# Sessions do not look into ids

Actions that give no node an id do the same on a relabelled session.

* `nearestWithin_relabel`, `previewTo_relabel`: what is near the pointer is decided by places, so a
  relabelled link being drawn snaps to the relabelled node;
* `perform_relabel`: one action, by cases on it;
* `run_relabel`, `replies_relabel`: runs of actions, and their answers.
-/

set_option linter.unusedSectionVars false

namespace Wireboard

variable {α : Type} [Scalar α] (π : Equiv.Perm String)

/-! ## pins -/

namespace Anchor

theorem foldl_nearer_relabel (p : Point α) (radius : α) (as : List (Anchor α))
    (best : Option (Anchor α × α)) :
    (as.map (·.relabel π)).foldl (nearer p radius) (best.map fun b => (b.1.relabel π, b.2)) =
      (as.foldl (nearer p radius) best).map fun b => (b.1.relabel π, b.2) := by
  -- the best anchor so far is relabelled as well, so the start of the fold is any
  induction as generalizing best with
  | nil => rfl
  | cons a as ih =>
    have hstep : nearer p radius (best.map fun b => (b.1.relabel π, b.2)) (a.relabel π) =
        (nearer p radius best a).map fun b => (b.1.relabel π, b.2) := by
      unfold nearer
      rw [Option.map_map, apply_ite (Option.map _)]
      rfl
    rw [List.map_cons, List.foldl_cons, List.foldl_cons, hstep, ih]

theorem nearestWithin_relabel (p : Point α) (radius : α) (as : List (Anchor α)) :
    nearestWithin p radius (as.map (·.relabel π)) =
      (nearestWithin p radius as).map fun b => (b.1.relabel π, b.2) :=
  foldl_nearer_relabel π p radius as none

end Anchor

theorem Settings.anchors_relabel (settings : Settings α) (v : Viewport α) (pin : Pin)
    (ns : List (Node α)) :
    settings.anchors v pin (ns.map (·.relabel π)) =
      (settings.anchors v pin ns).map (·.relabel π) := by
  simp only [anchors, List.map_map]
  rfl

/-! ## selection and gesture -/

theorem Gesture.isIdle_relabel (g : Gesture α) : (g.relabel π).isIdle = g.isIdle := by
  cases g <;> rfl

theorem Gesture.refersTo_relabel (g : Gesture α) (id : String) :
    (g.relabel π).refersTo (π id) = g.refersTo id := by
  cases g with
  | idle => rfl
  | panning anchor origin => rfl
  | dragging node grab press moved =>
    rw [Bool.eq_iff_iff]
    simp [Gesture.relabel, refersTo]
  | wiring source preview snap =>
    rw [Bool.eq_iff_iff]
    cases snap <;> simp [Gesture.relabel, refersTo]

theorem Selection.contains_relabel (s : Selection) (id : String) :
    (s.relabel π).contains (π id) = s.contains id := by
  rcases s with ⟨_ | x⟩
  · rfl
  · rw [Bool.eq_iff_iff]
    simp [Selection.relabel, contains]

theorem Selection.forget_relabel (s : Selection) (id : String) :
    (s.relabel π).forget (π id) = (s.forget id).relabel π := by
  unfold forget
  rw [contains_relabel, apply_ite (Selection.relabel π)]
  rfl

namespace Session

variable (s : Session α)

/-! ## the pointer -/

theorem inputNear_relabel (source : String) (p : Point α) :
    (s.relabel π).inputNear (π source) p =
      (s.inputNear source p).map fun b => (b.1.relabel π, b.2) := by
  simp only [inputNear, Session.relabel, Diagram.relabel]
  rw [Diagram.filter_ne_relabel, Settings.anchors_relabel, Anchor.nearestWithin_relabel]

theorem previewTo_relabel (source : String) (p : Point α) :
    (s.relabel π).previewTo (π source) p =
      (s.previewTo source p).map fun r => (r.1, r.2.map π) := by
  have hnode := Diagram.node?_relabel π s.diagram source
  cases hn : s.diagram.node? source with
  | none =>
    have hn' : (s.relabel π).diagram.node? (π source) = none := by
      rw [Session.relabel, hnode, hn, Option.map_none]
    simp only [previewTo, hn, hn', Option.map_none]
  | some n =>
    have hn' : (s.relabel π).diagram.node? (π source) = some (n.relabel π) := by
      rw [Session.relabel, hnode, hn, Option.map_some]
    rw [previewTo_of_node hn, previewTo_of_node hn', inputNear_relabel]
    rcases s.inputNear source p with _ | ⟨a, dist⟩ <;> rfl

theorem startDragging_relabel (id : String) (p : Point α) :
    (s.relabel π).startDragging (π id) p = (s.startDragging id p).relabel π := by
  unfold startDragging
  rw [show (s.relabel π).diagram.node? (π id) = _ from Diagram.node?_relabel π s.diagram id]
  cases s.diagram.node? id <;> rfl

theorem startWiring_relabel (id : String) (p : Point α) :
    (s.relabel π).startWiring (π id) p = (s.startWiring id p).relabel π := by
  unfold startWiring
  rw [previewTo_relabel]
  cases s.previewTo id p <;> rfl

theorem press_relabel (e : Press α) :
    (s.relabel π).press (e.relabel π) = (s.press e).relabel π := by
  have hskip : (!(s.relabel π).gesture.isIdle || !(e.relabel π).place.isFinite) =
      (!s.gesture.isIdle || !e.place.isFinite) := by
    rw [show (s.relabel π).gesture = s.gesture.relabel π from rfl, Gesture.isIdle_relabel]
    rfl
  unfold press
  rw [hskip]
  by_cases h : (!s.gesture.isIdle || !e.place.isFinite) = true
  · rw [if_pos h, if_pos h]
  rw [if_neg h, if_neg h]
  obtain ⟨p, button, ctrl, target⟩ := e
  cases button with
  | primary =>
    cases target with
    | canvas => cases ctrl <;> rfl
    | body id => exact startDragging_relabel π s id p
    | control id => rfl
    | input id => rfl
    | output id => exact startWiring_relabel π s id p
  | middle => cases target <;> rfl
  | secondary => cases target <;> rfl
  | other => cases target <;> rfl

theorem move_relabel (p : Point α) : (s.relabel π).move p = (s.move p).relabel π := by
  unfold move
  by_cases hp : (!p.isFinite) = true
  · rw [if_pos hp, if_pos hp]
  rw [if_neg hp, if_neg hp]
  cases hg : s.gesture with
  | idle =>
    have hg' : (s.relabel π).gesture = .idle := congrArg (Gesture.relabel π) hg
    rw [hg']
  | panning anchor origin =>
    have hg' : (s.relabel π).gesture = .panning anchor origin := congrArg (Gesture.relabel π) hg
    rw [hg']
    rfl
  | dragging id grab press moved =>
    have hg' : (s.relabel π).gesture = .dragging (π id) grab press moved :=
      congrArg (Gesture.relabel π) hg
    have hset := Diagram.setPosition_relabel π s.diagram id (s.viewport.toGraph p - grab)
    rw [hg']
    simp only [Session.relabel, hset]
    cases s.diagram.setPosition id (s.viewport.toGraph p - grab) <;> rfl
  | wiring source preview snap =>
    have hg' : (s.relabel π).gesture = .wiring (π source) preview (snap.map π) :=
      congrArg (Gesture.relabel π) hg
    rw [hg']
    simp only [previewTo_relabel]
    cases s.previewTo source p <;> rfl

theorem wiredTo?_relabel (source : String) (p : Point α) (target : Target) :
    (s.relabel π).wiredTo? (π source) p (target.relabel π) =
      (s.wiredTo? source p target).map π := by
  cases target with
  | input id =>
    simp only [Target.relabel, wiredTo?]
    by_cases hp : p.isFinite = true
    · rw [if_pos hp, if_pos hp, previewTo_relabel]
      cases s.previewTo source p <;> rfl
    · rw [if_neg hp, if_neg hp, Option.map_none]
  | _ => rfl

theorem step_toggle_relabel (d : Diagram α) (source target : String) :
    (d.relabel π).step (.toggle (π source) (π target)) =
      (d.step (.toggle source target)).relabel π := by
  simp only [Diagram.step, Diagram.perform, Diagram.toggle_relabel]
  cases d.toggle source target <;> rfl

theorem finishWiring_relabel (source : String) (p : Point α) (target : Target) :
    (s.relabel π).finishWiring (π source) p (target.relabel π) =
      (s.finishWiring source p target).relabel π := by
  rw [finishWiring_eq, finishWiring_eq, wiredTo?_relabel]
  cases s.wiredTo? source p target with
  | none => rfl
  | some t => exact step_toggle_relabel π s.diagram source t

theorem release_relabel (p : Point α) (target : Target) :
    (s.relabel π).release p (target.relabel π) = (s.release p target).relabel π := by
  unfold release
  cases hg : s.gesture with
  | idle =>
    have hg' : (s.relabel π).gesture = .idle := congrArg (Gesture.relabel π) hg
    rw [hg']
    rfl
  | panning anchor origin =>
    have hg' : (s.relabel π).gesture = .panning anchor origin := congrArg (Gesture.relabel π) hg
    rw [hg']
    rfl
  | dragging id grab press moved =>
    have hg' : (s.relabel π).gesture = .dragging (π id) grab press moved :=
      congrArg (Gesture.relabel π) hg
    have hlive : (s.relabel π).diagram.isLive (π id) = s.diagram.isLive id :=
      Diagram.isLive_relabel π s.diagram id
    rw [hg']
    cases moved with
    | true => rfl
    | false =>
      simp only [hlive]
      cases s.diagram.isLive id <;> rfl
  | wiring source preview snap =>
    have hg' : (s.relabel π).gesture = .wiring (π source) preview (snap.map π) :=
      congrArg (Gesture.relabel π) hg
    rw [hg']
    simp only [finishWiring_relabel]
    rfl

/-! ## edits, keys and the selection -/

/-- An answer, and the session with other ids. -/
def relabelSnd {β : Type} (r : β × Session α) : β × Session α := (r.1, r.2.relabel π)

theorem update_relabel (id name raw : String) :
    (s.relabel π).update (π id) name raw = relabelSnd π (s.update id name raw) := by
  simp only [update, Session.relabel, Diagram.update_relabel]
  cases s.diagram.update id name raw <;> rfl

theorem reportWidth_relabel (id : String) (w : α) :
    (s.relabel π).reportWidth (π id) w = relabelSnd π (s.reportWidth id w) := by
  simp only [reportWidth, Session.relabel, Diagram.setWidth_relabel]
  cases s.diagram.setWidth id w <;> rfl

theorem toggle_relabel (source target : String) :
    (s.relabel π).toggle (π source) (π target) = relabelSnd π (s.toggle source target) := by
  simp only [toggle, Session.relabel, Diagram.toggle_relabel]
  cases s.diagram.toggle source target <;> rfl

theorem remove_relabel (id : String) :
    (s.relabel π).remove (π id) = relabelSnd π (s.remove id) := by
  simp only [remove, Session.relabel, Diagram.remove_relabel]
  cases s.diagram.remove id with
  | error x => rfl
  | ok r =>
    simp only [relabelResult, relabelSnd, Session.relabel, Selection.forget_relabel,
      Gesture.refersTo_relabel, apply_ite (Gesture.relabel π)]
    rfl

theorem deleteSelected_relabel :
    (s.relabel π).deleteSelected = relabelSnd π s.deleteSelected := by
  unfold deleteSelected
  cases hsel : s.selection.id with
  | none =>
    have hsel' : (s.relabel π).selection.id = none := congrArg (Option.map π) hsel
    rw [hsel']
    rfl
  | some id =>
    have hsel' : (s.relabel π).selection.id = some (π id) := congrArg (Option.map π) hsel
    rw [hsel']
    exact remove_relabel π { s with selection := .none } id

theorem select_relabel (id : String) :
    (s.relabel π).select (π id) = relabelSnd π (s.select id) := by
  have hlive : (s.relabel π).diagram.isLive (π id) = s.diagram.isLive id :=
    Diagram.isLive_relabel π s.diagram id
  unfold select
  rw [hlive]
  cases s.diagram.isLive id <;> rfl

theorem key_relabel (k : Key) (typing : Bool) :
    (s.relabel π).key k typing = relabelSnd π (s.key k typing) := by
  have hdelete : (if typing then (false, s.relabel π) else (s.relabel π).deleteSelected) =
      relabelSnd π (if typing then (false, s) else s.deleteSelected) := by
    cases typing with
    | true => rfl
    | false => exact deleteSelected_relabel π s
  cases k with
  | escape =>
    simp only [key]
    rw [show (s.relabel π).gesture.isIdle = s.gesture.isIdle from
      Gesture.isIdle_relabel π s.gesture]
    cases s.gesture.isIdle <;> rfl
  | delete => exact hdelete
  | backspace => exact hdelete
  | other => rfl

/-! ## runs -/

theorem perform_relabel {a : Action α} (ha : a.givesNoId = true) :
    (s.relabel π).perform (a.relabel π) =
      ((s.perform a).1.relabel π, (s.perform a).2.relabel π) := by
  cases a with
  | press e => exact congrArg (Prod.mk Reply.nothing) (press_relabel π s e)
  | move p => exact congrArg (Prod.mk Reply.nothing) (move_relabel π s p)
  | release p target => exact congrArg (Prod.mk Reply.nothing) (release_relabel π s p target)
  | cancel => rfl
  | key k typing =>
    simp only [Action.relabel, perform, key_relabel]
    rfl
  | wheel p delta => rfl
  | zoomIn p => rfl
  | zoomOut p => rfl
  | resetView => rfl
  | update id name raw =>
    simp only [Action.relabel, perform, update_relabel]
    rfl
  | reportWidth id w =>
    simp only [Action.relabel, perform, reportWidth_relabel]
    rfl
  | reportScreenWidth id w =>
    have hreport := reportWidth_relabel π s id (w / s.viewport.scale)
    simp only [Action.relabel, perform, reportScreenWidth]
    rw [show (s.relabel π).viewport = s.viewport from rfl, hreport]
    rfl
  | toggle source target =>
    simp only [Action.relabel, perform, toggle_relabel]
    rfl
  | remove id =>
    simp only [Action.relabel, perform, remove_relabel]
    rfl
  | deleteSelected =>
    simp only [Action.relabel, perform, deleteSelected_relabel]
    rfl
  | select id =>
    simp only [Action.relabel, perform, select_relabel]
    rfl
  | clearSelection => rfl
  | _ => cases ha

theorem run_relabel {as : List (Action α)} (h : ∀ a ∈ as, a.givesNoId = true) :
    (s.relabel π).run (as.map (·.relabel π)) = (s.run as).relabel π := by
  induction as generalizing s with
  | nil => rfl
  | cons a as ih =>
    obtain ⟨ha, has⟩ := List.forall_mem_cons.1 h
    have hstep : (s.relabel π).step (a.relabel π) = (s.step a).relabel π :=
      congrArg Prod.snd (perform_relabel π s ha)
    rw [List.map_cons]
    change ((s.relabel π).step (a.relabel π)).run _ = ((s.step a).run as).relabel π
    rw [hstep, ih _ has]

theorem replies_relabel {as : List (Action α)} (h : ∀ a ∈ as, a.givesNoId = true) :
    (s.relabel π).replies (as.map (·.relabel π)) = (s.replies as).map (·.relabel π) := by
  induction as generalizing s with
  | nil => rfl
  | cons a as ih =>
    obtain ⟨ha, has⟩ := List.forall_mem_cons.1 h
    have hperform := perform_relabel π s ha
    have hstep : (s.relabel π).step (a.relabel π) = (s.step a).relabel π :=
      congrArg Prod.snd hperform
    simp only [List.map_cons, replies, hstep, ih _ has, hperform]

end Session

end Wireboard
