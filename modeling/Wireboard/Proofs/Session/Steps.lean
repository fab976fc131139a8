import Wireboard.Proofs.Anchor
import Wireboard.Proofs.Diagram.Sound
import Wireboard.Session.Action

/-!
# What the actions do

For every action on a session, the session that it leaves, as far as possible as one equation.

* Additions, edits and toggles leave the session with the diagram that the edit of the same name
  leaves (`add_snd`, `update_snd`, …), refused or not.
* `previewTo_eq_some` says what a preview of a link shows, and `finishWiring_eq` which link, if any,
  is toggled when the button goes up.
* `press_of_busy`, `press_output`, `move_panning`, …: what the pointer does in each state of a
  gesture.
* `step_diagram`: an action leaves the diagram alone or does to it what one edit does, so what edits
  keep, sessions keep.
-/

set_option linter.unusedSectionVars false

namespace Wireboard

/-- The actions that give a node another id. -/
def Action.renames {α : Type} : Action α → Bool
  | .rename .. => true
  | _ => false

theorem Gesture.isIdle_iff {α : Type} {g : Gesture α} : g.isIdle = true ↔ g = .idle := by
  cases g <;> simp [isIdle]

theorem Gesture.isIdle_eq_false_iff {α : Type} {g : Gesture α} : g.isIdle = false ↔ g ≠ .idle := by
  rw [← Bool.not_eq_true, isIdle_iff]

namespace Session

variable {α : Type} [Scalar α] {s s' : Session α}

/-! ## edits -/

theorem add_snd (s : Session α) (l : Layer) (p : Point α) :
    (s.add l p).2 = { s with diagram := s.diagram.step (.add l p) } := by
  simp only [add, Diagram.step, Diagram.perform]
  cases s.diagram.add l p <;> rfl

theorem update_snd (s : Session α) (id name raw : String) :
    (s.update id name raw).2 = { s with diagram := s.diagram.step (.update id name raw) } := by
  simp only [update, Diagram.step, Diagram.perform]
  cases s.diagram.update id name raw <;> rfl

theorem reportWidth_snd (s : Session α) (id : String) (w : α) :
    (s.reportWidth id w).2 = { s with diagram := s.diagram.step (.setWidth id w) } := by
  simp only [reportWidth, Diagram.step, Diagram.perform]
  cases s.diagram.setWidth id w <;> rfl

theorem toggle_snd (s : Session α) (source target : String) :
    (s.toggle source target).2 = { s with diagram := s.diagram.step (.toggle source target) } := by
  simp only [toggle, Diagram.step, Diagram.perform]
  cases s.diagram.toggle source target <;> rfl

/-- A new node is dropped in graph coordinates, unless its layer is disabled. -/
theorem dropLayer_snd (s : Session α) (l : Layer) (p : Point α) :
    (s.dropLayer l p).2 = s ∨
      (s.dropLayer l p).2 =
        (s.add l (s.viewport.toGraph (p - s.settings.dropGrip))).2 := by
  unfold dropLayer
  split
  · exact .inr rfl
  · exact .inl rfl

theorem drop_snd (s : Session α) (raw : String) (p : Point α) :
    (s.drop raw p).2 = s ∨ ∃ l, (s.drop raw p).2 = (s.dropLayer l p).2 := by
  unfold drop
  split
  · next l _ => exact .inr ⟨l, rfl⟩
  · exact .inl rfl

/-- Renaming with its refusals left out: the diagram, the selection and the gesture all put the new
id in the place of the old one. -/
theorem rename_eq_true {id new : String} (h : s.rename id new = (true, s')) :
    ∃ name, s.diagram.rename id new = .ok (name, s.diagram.renamed id name) ∧
      s' = { s with
        diagram := s.diagram.renamed id name
        selection := s.selection.rename id name
        gesture := s.gesture.rename id name } := by
  unfold rename at h
  split at h
  · next name d hd =>
    obtain ⟨-, -, -, -, rfl⟩ := Diagram.rename_eq_ok_iff.1 hd
    exact ⟨name, hd, (Prod.mk.inj h).2.symm⟩
  · cases h

theorem rename_eq_false {id new : String} (h : s.rename id new = (false, s')) : s' = s := by
  unfold rename at h
  split at h
  · cases h
  · exact (Prod.mk.inj h).2.symm

/-- The session without a node, and without what refers to it. -/
def without (s : Session α) (id : String) : Session α :=
  { s with
    diagram := s.diagram.without id
    selection := s.selection.forget id
    gesture := if s.gesture.refersTo id then .idle else s.gesture }

theorem remove_of_live {id : String} (h : id ∈ s.diagram.ids) :
    s.remove id = (true, s.without id) := by
  obtain ⟨n, hn⟩ := Diagram.exists_node? (Diagram.isLive_iff.2 h)
  simp only [remove, Diagram.remove_eq_ok_iff.2 ⟨hn, rfl⟩]
  rfl

theorem remove_of_not_live {id : String} (h : id ∉ s.diagram.ids) : s.remove id = (false, s) := by
  have hn := Diagram.node?_eq_none_iff.2 (Diagram.isLive_eq_false_iff.2 h)
  simp only [remove, Diagram.remove, hn]

/-- Without a selected node nothing is deleted, and a selected node is live. -/
theorem deleteSelected_of_live {id : String} (hsel : s.selection.id = some id)
    (h : id ∈ s.diagram.ids) :
    s.deleteSelected = (true, { s with selection := .none }.without id) := by
  unfold deleteSelected
  rw [hsel]
  exact remove_of_live (s := { s with selection := .none }) h

theorem deleteSelected_of_none (hsel : s.selection.id = none) : s.deleteSelected = (false, s) := by
  unfold deleteSelected
  rw [hsel]

/-! ## previews of links -/

/-- The input that a link drawn from `source` snaps to at `p`, and its distance. -/
def inputNear (s : Session α) (source : String) (p : Point α) : Option (Anchor α × α) :=
  Anchor.nearestWithin p s.settings.snapRadius
    (s.settings.anchors s.viewport .input (s.diagram.nodes.filter (·.id != source)))

/-- What is snapped to is the input of another node. -/
theorem inputNear_eq_some {source : String} {p : Point α} {a : Anchor α} {dist : α}
    (h : s.inputNear source p = some (a, dist)) :
    a.node ≠ source ∧ ∃ n ∈ s.diagram.nodes, n.id = a.node ∧
      a.place = s.viewport.toScreen (s.settings.pinPlace n .input) := by
  obtain ⟨n, hn, rfl⟩ := Anchor.exists_of_nearestWithin h
  obtain ⟨hmem, hne⟩ := List.mem_filter.1 hn
  exact ⟨by simpa using hne, n, hmem, rfl, rfl⟩

/-- A preview starts at the output of its source.  It ends at the input that it snaps to, or else at
the pointer. -/
theorem previewTo_of_node {source : String} {n : Node α} (hn : s.diagram.node? source = some n)
    (p : Point α) :
    s.previewTo source p = some
      (⟨s.viewport.toScreen (s.settings.pinPlace n .output),
        ((s.inputNear source p).map (·.1.place)).getD p, (s.inputNear source p).isSome⟩,
        (s.inputNear source p).map (·.1.node)) := by
  simp only [previewTo, inputNear, hn, Option.map_some]
  rcases Anchor.nearestWithin p s.settings.snapRadius
    (s.settings.anchors s.viewport .input (s.diagram.nodes.filter (·.id != source)))
    with _ | ⟨a, dist⟩ <;> rfl

theorem previewTo_eq_some {source : String} {p : Point α} {preview : Preview α}
    {snap : Option String} (h : s.previewTo source p = some (preview, snap)) :
    source ∈ s.diagram.ids ∧ preview.snapped = snap.isSome ∧
      ∀ t, snap = some t → t ∈ s.diagram.ids ∧ t ≠ source := by
  obtain ⟨n, hn, -⟩ := Option.map_eq_some_iff.1 h
  refine ⟨Diagram.isLive_iff.1 (Diagram.isLive_of_node? hn), ?_⟩
  rw [previewTo_of_node hn] at h
  obtain ⟨rfl, rfl⟩ := Prod.mk.inj (Option.some.inj h)
  refine ⟨by simp, ?_⟩
  intro t ht
  obtain ⟨⟨a, dist⟩, ha, rfl⟩ := Option.map_eq_some_iff.1 ht
  obtain ⟨hne, m, hm, hid, -⟩ := inputNear_eq_some ha
  exact ⟨Diagram.mem_ids.2 ⟨m, hm, hid⟩, hne⟩

/-- A source that is live has a preview at every place. -/
theorem exists_previewTo {source : String} (h : source ∈ s.diagram.ids) (p : Point α) :
    ∃ preview snap, s.previewTo source p = some (preview, snap) := by
  obtain ⟨n, hn⟩ := Diagram.exists_node? (Diagram.isLive_iff.2 h)
  exact ⟨_, _, previewTo_of_node hn p⟩

/-- The node that a link drawn from `source` goes to when it is let go over `target` at `p`. -/
def wiredTo? (s : Session α) (source : String) (p : Point α) : Target → Option String
  | .input _ => if p.isFinite then (s.previewTo source p).bind (·.2) else none
  | _ => none

theorem finishWiring_eq (source : String) (p : Point α) (target : Target) :
    s.finishWiring source p target =
      match s.wiredTo? source p target with
      | some t => s.diagram.step (.toggle source t)
      | none => s.diagram := by
  cases target with
  | input id =>
    simp only [finishWiring, wiredTo?]
    by_cases hp : p.isFinite = true
    · rw [if_pos hp, if_pos hp]
      rcases s.previewTo source p with _ | ⟨preview, _ | t⟩
      · rfl
      · rfl
      · simp only [Option.bind_some, Diagram.step, Diagram.perform]
        cases s.diagram.toggle source t <;> rfl
    · rw [if_neg hp, if_neg hp]
  | _ => rfl

/-! ## the pointer during a gesture -/

theorem press_of_busy (h : s.gesture ≠ .idle) (e : Press α) : s.press e = s := by
  have hbusy : s.gesture.isIdle = false := Gesture.isIdle_eq_false_iff.2 h
  unfold press
  rw [if_pos (by simp [hbusy])]

theorem press_of_not_finite {e : Press α} (h : e.place.isFinite = false) : s.press e = s := by
  unfold press
  rw [if_pos (by simp [h])]

theorem press_output {p : Point α} {ctrl : Bool} {id : String} {shown : Preview α}
    {snap : Option String} (hidle : s.gesture = .idle) (hp : p.isFinite = true)
    (hshown : s.previewTo id p = some (shown, snap)) :
    s.press ⟨p, .primary, ctrl, .output id⟩ =
      { s with gesture := .wiring id (some shown) snap } := by
  have hready : (!s.gesture.isIdle || !p.isFinite) = false := by
    rw [hidle, hp]
    rfl
  unfold press
  rw [if_neg (by simp [hready])]
  simp only [startWiring, hshown]

theorem move_of_not_finite {p : Point α} (h : p.isFinite = false) : s.move p = s := by
  unfold move
  rw [if_pos (by simp [h])]

theorem move_idle (hg : s.gesture = .idle) (p : Point α) : s.move p = s := by
  unfold move
  split
  · rfl
  · rw [hg]

theorem move_panning {p anchor origin : Point α} (hp : p.isFinite = true)
    (hg : s.gesture = .panning anchor origin) :
    s.move p = { s with viewport := s.viewport.place (origin + (p - anchor)) s.viewport.scale } := by
  unfold move
  rw [if_neg (by simp [hp]), hg]

/-- A node that is live follows the pointer to every place that is one. -/
theorem move_dragging {node : String} {p grab press : Point α} {moved : Bool}
    (hp : p.isFinite = true) (hg : s.gesture = .dragging node grab press moved)
    (hlive : s.diagram.isLive node = true)
    (hq : (s.viewport.toGraph p - grab).isFinite = true) :
    s.move p = { s with
      diagram := s.diagram.modify node ({ · with position := s.viewport.toGraph p - grab })
      gesture := .dragging node grab press (moved || p != press) } := by
  unfold move
  rw [if_neg (by simp [hp]), hg]
  simp only [Diagram.setPosition_eq_ok_iff.2 ⟨hq, hlive, rfl⟩]

theorem move_dragging_astray {node : String} {p grab press : Point α} {moved : Bool}
    (hp : p.isFinite = true) (hg : s.gesture = .dragging node grab press moved)
    (hq : (s.viewport.toGraph p - grab).isFinite = false) :
    s.move p = { s with gesture := .idle } := by
  have hrefused : s.diagram.setPosition node (s.viewport.toGraph p - grab) =
      .error (.badPosition (s.viewport.toGraph p - grab)) := by
    unfold Diagram.setPosition
    rw [if_pos (by simp [hq])]
  unfold move
  rw [if_neg (by simp [hp]), hg]
  simp only [hrefused]

theorem move_wiring {source : String} {p : Point α} {preview : Option (Preview α)}
    {snap : Option String} {shown : Preview α} {target : Option String} (hp : p.isFinite = true)
    (hg : s.gesture = .wiring source preview snap)
    (hshown : s.previewTo source p = some (shown, target)) :
    s.move p = { s with gesture := .wiring source (some shown) target } := by
  unfold move
  rw [if_neg (by simp [hp]), hg]
  simp only [hshown]

/-! ## what actions do to the diagram -/

theorem press_diagram (s : Session α) (e : Press α) : (s.press e).diagram = s.diagram := by
  unfold press startPanning startDragging startWiring
  split
  · rfl
  · split
    · rfl
    · split <;> rfl
    · split <;> rfl
    · split <;> rfl
    · rfl

theorem release_diagram (s : Session α) (p : Point α) (target : Target) :
    (s.release p target).diagram = s.diagram ∨
      ∃ source t, (s.release p target).diagram = s.diagram.step (.toggle source t) := by
  unfold release
  split
  · left
    split <;> rfl
  · next source _ _ _ =>
    simp only [finishWiring_eq]
    split
    · next t _ => exact .inr ⟨source, t, rfl⟩
    · exact .inl rfl
  · exact .inl rfl

theorem move_diagram (s : Session α) (p : Point α) :
    (s.move p).diagram = s.diagram ∨
      ∃ id q, (s.move p).diagram = s.diagram.step (.setPosition id q) := by
  unfold move
  split
  · exact .inl rfl
  · split
    · exact .inl rfl
    · exact .inl rfl
    · next id grab press moved _ =>
      split
      · next d hd =>
        refine .inr ⟨id, s.viewport.toGraph p - grab, ?_⟩
        simp only [Diagram.step, Diagram.perform, hd]
        rfl
      · exact .inl rfl
    · left
      split <;> rfl

theorem rename_diagram (s : Session α) (id new : String) :
    (s.rename id new).2.diagram = s.diagram.step (.rename id new) := by
  simp only [rename, Diagram.step, Diagram.perform]
  cases s.diagram.rename id new <;> rfl

theorem remove_diagram (s : Session α) (id : String) :
    (s.remove id).2.diagram = s.diagram.step (.remove id) := by
  simp only [remove, Diagram.step, Diagram.perform]
  cases s.diagram.remove id <;> rfl

theorem deleteSelected_diagram (s : Session α) :
    s.deleteSelected.2.diagram = s.diagram ∨
      ∃ id, s.deleteSelected.2.diagram = s.diagram.step (.remove id) := by
  unfold deleteSelected
  split
  · next id _ => exact .inr ⟨id, remove_diagram { s with selection := .none } id⟩
  · exact .inl rfl

theorem add_diagram (s : Session α) (l : Layer) (p : Point α) :
    (s.add l p).2.diagram = s.diagram.step (.add l p) := by
  rw [add_snd]

theorem dropLayer_diagram (s : Session α) (l : Layer) (p : Point α) :
    (s.dropLayer l p).2.diagram = s.diagram ∨
      ∃ q, (s.dropLayer l p).2.diagram = s.diagram.step (.add l q) := by
  rcases dropLayer_snd s l p with h | h
  · exact .inl (congrArg diagram h)
  · exact .inr ⟨_, by rw [h, add_diagram]⟩

/-- To see this by unfolding `rename` as well means to trim the text, which takes long. -/
theorem step_rename (s : Session α) (node new : String) :
    s.step (.rename node new) = (s.rename node new).2 := by
  simp only [step, perform, Prod.map_snd, id_eq]

/-- An action leaves the diagram as it is or does to it what one edit does, which renames only if the
action does.  Parameters change by typed texts only. -/
theorem step_diagram (s : Session α) (a : Action α) :
    (s.step a).diagram = s.diagram ∨
      ∃ e : Edit α, e.renames = a.renames ∧ e.setsParam = false ∧
        (s.step a).diagram = s.diagram.step e := by
  have hdelete : s.deleteSelected.2.diagram = s.diagram ∨
      ∃ e : Edit α, e.renames = false ∧ e.setsParam = false ∧
        s.deleteSelected.2.diagram = s.diagram.step e :=
    (deleteSelected_diagram s).imp_right fun ⟨id, h⟩ => ⟨_, rfl, rfl, h⟩
  have hdrop : ∀ l p, (s.dropLayer l p).2.diagram = s.diagram ∨
      ∃ e : Edit α, e.renames = false ∧ e.setsParam = false ∧
        (s.dropLayer l p).2.diagram = s.diagram.step e :=
    fun l p => (dropLayer_diagram s l p).imp_right fun ⟨q, h⟩ => ⟨_, rfl, rfl, h⟩
  cases a with
  | press e => exact .inl (press_diagram s e)
  | move p => exact (move_diagram s p).imp_right fun ⟨id, q, h⟩ => ⟨_, rfl, rfl, h⟩
  | release p target => exact (release_diagram s p target).imp_right fun ⟨_, _, h⟩ => ⟨_, rfl, rfl, h⟩
  | cancel => exact .inl rfl
  | key k typing =>
    simp only [step, perform, key, Prod.map_snd, id_eq]
    cases k with
    | escape => exact .inl (by dsimp only; split <;> rfl)
    | delete =>
      by_cases ht : typing = true
      · exact .inl (by simp [ht])
      · simpa [ht, Action.renames] using hdelete
    | backspace =>
      by_cases ht : typing = true
      · exact .inl (by simp [ht])
      · simpa [ht, Action.renames] using hdelete
    | other => exact .inl rfl
  | wheel p delta => exact .inl rfl
  | zoomIn p => exact .inl rfl
  | zoomOut p => exact .inl rfl
  | resetView => exact .inl rfl
  | drop raw p =>
    simp only [step, perform, Prod.map_snd, id_eq]
    rcases drop_snd s raw p with h | ⟨l, h⟩
    · exact .inl (by rw [h])
    · rw [h]
      exact hdrop l p
  | dropLayer l p => exact hdrop l p
  | add l p => exact .inr ⟨_, rfl, rfl, add_diagram s l p⟩
  | rename node new => exact .inr ⟨_, rfl, rfl, by rw [step_rename, rename_diagram]⟩
  | update node name raw => exact .inr ⟨_, rfl, rfl, congrArg diagram (update_snd s node name raw)⟩
  | reportWidth node w => exact .inr ⟨_, rfl, rfl, congrArg diagram (reportWidth_snd s node w)⟩
  | reportScreenWidth node w => exact .inr ⟨_, rfl, rfl, congrArg diagram (reportWidth_snd s node _)⟩
  | toggle source target => exact .inr ⟨_, rfl, rfl, congrArg diagram (toggle_snd s source target)⟩
  | remove node => exact .inr ⟨_, rfl, rfl, remove_diagram s node⟩
  | deleteSelected => exact hdelete
  | select node =>
    left
    simp only [step, perform, select, Prod.map_snd, id_eq]
    split <;> rfl
  | clearSelection => exact .inl rfl

end Session

end Wireboard
