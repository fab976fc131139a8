import Wireboard.Proofs.Session.Sound

/-!
# How gestures begin, go on and end

The gestures of a session as a state machine.

* `Begins s e g`: a press `e` on the idle session `s` begins the gesture `g`;
* `Ends s a`: the action `a` ends the gesture of `s`;
* `Gesture.Continues rename g g'`: `g'` is `g` some time later, nodes having been renamed;
* `gesture_transitions`: in every session that runs lead to, gestures begin, go on and end in just
  these ways.
-/

set_option linter.unusedSectionVars false

namespace Wireboard

variable {α : Type}

/-! ## going on -/

namespace Gesture

/-- The same gesture, nodes having been renamed meanwhile.  What was captured when it began stays,
and a node that has been moved stays moved. -/
inductive Continues (rename : String → String) : Gesture α → Gesture α → Prop where
  | panning (anchor origin : Point α) :
      Continues rename (.panning anchor origin) (.panning anchor origin)
  | dragging (node : String) (grab press : Point α) {moved moved' : Bool}
      (mono : moved = true → moved' = true) :
      Continues rename (.dragging node grab press moved) (.dragging (rename node) grab press moved')
  | wiring (source : String) (preview preview' : Option (Preview α)) (snap snap' : Option String) :
      Continues rename (.wiring source preview snap) (.wiring (rename source) preview' snap')

theorem Continues.ne_idle {rename : String → String} {g g' : Gesture α}
    (h : Continues rename g g') : g' ≠ .idle := by
  cases h <;> simp

theorem Continues.source?_eq {rename : String → String} {g g' : Gesture α}
    (h : Continues rename g g') : g'.source? = g.source?.map rename := by
  cases h <;> rfl

theorem Continues.same {g : Gesture α} (h : g ≠ .idle) : Continues id g g := by
  cases g with
  | idle => exact absurd rfl h
  | panning anchor origin => exact .panning anchor origin
  | dragging node grab press moved => exact .dragging node grab press fun hm => hm
  | wiring source preview snap => exact .wiring source ..

theorem Continues.renamed {g : Gesture α} (h : g ≠ .idle) (id name : String) :
    Continues (fun x => if x = id then name else x) g (g.rename id name) := by
  cases g with
  | idle => exact absurd rfl h
  | panning anchor origin => exact .panning anchor origin
  | dragging node grab press moved => exact .dragging node grab press fun hm => hm
  | wiring source preview snap => exact .wiring source ..

/-- The gesture with other ids in the place of those that it refers to. -/
def mapIds (rename : String → String) : Gesture α → Gesture α
  | .dragging node grab press moved => .dragging (rename node) grab press moved
  | .wiring source preview snap => .wiring (rename source) preview (snap.map rename)
  | g => g

theorem mapIds_id (g : Gesture α) : g.mapIds id = g := by
  cases g with
  | wiring source preview snap => rw [mapIds, Option.map_id_fun, id_eq, id_eq]
  | _ => rfl

theorem rename_eq_mapIds (g : Gesture α) (id name : String) :
    g.rename id name = g.mapIds fun x => if x = id then name else x := by
  cases g with
  | wiring source preview snap => rw [rename, mapIds, rename_snap]
  | _ => rfl

end Gesture

/-- The actions that have nothing to do with gestures. -/
def Action.leavesGesture : Action α → Bool
  | .wheel .. | .zoomIn _ | .zoomOut _ | .resetView | .drop .. | .dropLayer .. | .add .. | .update ..
  | .reportWidth .. | .reportScreenWidth .. | .toggle .. | .select _ | .clearSelection => true
  | _ => false

namespace Session

variable [Scalar α] {s : Session α}

/-- What the action turns the id of a node into. -/
def idAfter (s : Session α) : Action α → String → String
  | .rename node new =>
    match s.diagram.rename node new with
    | .ok (name, _) => fun x => if x = node then name else x
    | .error _ => id
  | _ => id

/-! ## beginning -/

/-- The gestures that a press on an idle session begins. -/
inductive Begins (s : Session α) : Press α → Gesture α → Prop where
  | pan (p : Point α) (ctrl : Bool) :
      Begins s ⟨p, .middle, ctrl, .canvas⟩ (.panning p s.viewport.offset)
  | panWithCtrl (p : Point α) :
      Begins s ⟨p, .primary, true, .canvas⟩ (.panning p s.viewport.offset)
  | drag (p : Point α) (ctrl : Bool) {id : String} {n : Node α}
      (live : s.diagram.node? id = some n) :
      Begins s ⟨p, .primary, ctrl, .body id⟩
        (.dragging id (s.viewport.toGraph p - n.position) p false)
  | wire (p : Point α) (ctrl : Bool) {id : String} {preview : Preview α} {snap : Option String}
      (live : id ∈ s.diagram.ids) (shown : s.previewTo id p = some (preview, snap)) :
      Begins s ⟨p, .primary, ctrl, .output id⟩ (.wiring id (some preview) snap)

theorem Begins.unique {e : Press α} {g g' : Gesture α} (h : Begins s e g) (h' : Begins s e g') :
    g = g' := by
  cases h with
  | pan p ctrl => cases h'; rfl
  | panWithCtrl p => cases h'; rfl
  | drag p ctrl live =>
    cases h' with
    | drag _ _ live' => rw [Option.some.inj (live.symm.trans live')]
  | wire p ctrl live shown =>
    cases h' with
    | wire _ _ _ shown' =>
      obtain ⟨rfl, rfl⟩ := Prod.mk.inj (Option.some.inj (shown.symm.trans shown'))
      rfl

/-- At a finite place, a press on an idle session begins what the table says, or nothing. -/
theorem gesture_press (hidle : s.gesture = .idle) {e : Press α} (hp : e.place.isFinite = true) :
    Begins s e (s.press e).gesture ∨
      (s.press e).gesture = .idle ∧ ∀ g, ¬ Begins s e g := by
  have hready : (!s.gesture.isIdle || !e.place.isFinite) = false := by
    rw [hidle, hp]
    rfl
  obtain ⟨p, button, ctrl, target⟩ := e
  unfold press
  rw [if_neg (by simp [hready])]
  cases button with
  | middle =>
    cases target with
    | canvas => exact .inl (.pan p ctrl)
    | _ => exact .inr ⟨hidle, fun g hg => by cases hg⟩
  | primary =>
    cases target with
    | canvas =>
      cases ctrl with
      | true => exact .inl (.panWithCtrl p)
      | false => exact .inr ⟨hidle, fun g hg => by cases hg⟩
    | body id =>
      simp only [startDragging]
      cases hn : s.diagram.node? id with
      | some n => exact .inl (.drag p ctrl hn)
      | none =>
        refine .inr ⟨hidle, fun g hg => ?_⟩
        cases hg with
        | drag _ _ live => simp [hn] at live
    | output id =>
      simp only [startWiring]
      cases hshown : s.previewTo id p with
      | some shown => exact .inl (.wire p ctrl (previewTo_eq_some hshown).1 hshown)
      | none =>
        refine .inr ⟨hidle, fun g hg => ?_⟩
        cases hg with
        | wire _ _ _ shown => simp [hshown] at shown
    | control id => exact .inr ⟨hidle, fun g hg => by cases hg⟩
    | input id => exact .inr ⟨hidle, fun g hg => by cases hg⟩
  | secondary => exact .inr ⟨hidle, fun g hg => by cases hg⟩
  | other => exact .inr ⟨hidle, fun g hg => by cases hg⟩

/-! ## ending -/

/-- The removal of the selected node ends the gesture. -/
def EndsWithSelection (s : Session α) : Prop :=
  ∃ id, s.selection.id = some id ∧ s.gesture.refersTo id = true

/-- What ends the gesture of a session: a release, giving it up, the removal of a node that it
refers to, and a drag to a place that is no place in the diagram. -/
def Ends (s : Session α) : Action α → Prop
  | .release _ _ | .cancel | .key .escape _ => True
  | .remove id => s.gesture.refersTo id = true
  | .deleteSelected | .key .delete false | .key .backspace false => s.EndsWithSelection
  | .move p => p.isFinite = true ∧ ∃ node grab press moved,
      s.gesture = .dragging node grab press moved ∧
        (s.viewport.toGraph p - grab).isFinite = false
  | _ => False

/-- After the action `a` of `s` the gesture of `s'` is over if `a` ends it, and otherwise it goes
on. -/
def EndsOrContinues (s : Session α) (a : Action α) (s' : Session α) : Prop :=
  (s.Ends a ∧ s'.gesture = .idle) ∨
    (¬ s.Ends a ∧ Gesture.Continues (s.idAfter a) s.gesture s'.gesture)

theorem EndsOrContinues.of_same {a : Action α} {s' : Session α} (h : s.gesture ≠ .idle)
    (hends : ¬ s.Ends a) (hid : s.idAfter a = id) (hg : s'.gesture = s.gesture) :
    s.EndsOrContinues a s' := by
  refine .inr ⟨hends, ?_⟩
  rw [hid, hg]
  exact .same h

theorem gesture_release (s : Session α) (p : Point α) (target : Target) :
    (s.release p target).gesture = .idle := by
  unfold release
  split
  · split <;> rfl
  · rfl
  · rfl

theorem endsOrContinues_move (hs : s.Sound) (h : s.gesture ≠ .idle) (p : Point α) :
    s.EndsOrContinues (.move p) (s.move p) := by
  have hsound := hs.gesture
  cases hp : p.isFinite with
  | false =>
    rw [move_of_not_finite hp]
    exact .of_same h (fun hends => by simp [Ends, hp] at hends) rfl rfl
  | true =>
    cases hg : s.gesture with
    | idle => exact absurd hg h
    | panning anchor origin =>
      rw [move_panning hp hg]
      exact .of_same h (fun hends => by simp [Ends, hg] at hends) rfl rfl
    | dragging node grab press moved =>
      rw [hg] at hsound
      cases hq : (s.viewport.toGraph p - grab).isFinite with
      | true =>
        rw [move_dragging hp hg (Diagram.isLive_iff.2 hsound) hq]
        refine .inr ⟨fun hends => by simp [Ends, hg, hq] at hends, ?_⟩
        rw [hg]
        exact .dragging node grab press fun hmoved => by simp [hmoved]
      | false =>
        rw [move_dragging_astray hp hg hq]
        exact .inl ⟨⟨hp, node, grab, press, moved, hg, hq⟩, rfl⟩
    | wiring source preview snap =>
      rw [hg] at hsound
      obtain ⟨shown, target, hshown⟩ := exists_previewTo hsound.1 p
      rw [move_wiring hp hg hshown]
      refine .inr ⟨fun hends => by simp [Ends, hg] at hends, ?_⟩
      rw [hg]
      exact .wiring source ..

/-- A gesture of a sound session refers to live nodes. -/
theorem Sound.live_of_refersTo (hs : s.Sound) {id : String} (h : s.gesture.refersTo id = true) :
    id ∈ s.diagram.ids := by
  have hsound := hs.gesture
  cases hg : s.gesture with
  | idle => simp [hg, Gesture.refersTo] at h
  | panning anchor origin => simp [hg, Gesture.refersTo] at h
  | dragging node grab press moved =>
    rw [hg] at h hsound
    obtain rfl : node = id := by simpa [Gesture.refersTo] using h
    exact hsound
  | wiring source preview snap =>
    rw [hg] at h hsound
    obtain ⟨hsource, -, hsnap⟩ := hsound
    rcases (by simpa [Gesture.refersTo] using h : source = id ∨ snap = some id) with rfl | hid
    · exact hsource
    · exact (hsnap id hid).1

theorem Sound.live_of_dragged (hs : s.Sound) {id : String} (h : s.gesture.dragged? = some id) :
    id ∈ s.diagram.ids := by
  refine hs.live_of_refersTo ?_
  cases hg : s.gesture with
  | dragging node grab press moved => simpa [hg, Gesture.dragged?, Gesture.refersTo] using h
  | _ => simp [hg, Gesture.dragged?] at h

theorem Sound.live_of_source (hs : s.Sound) {id : String} (h : s.gesture.source? = some id) :
    id ∈ s.diagram.ids := by
  refine hs.live_of_refersTo ?_
  cases hg : s.gesture with
  | wiring source preview snap =>
    have hid : source = id := by simpa [hg, Gesture.source?] using h
    simp [Gesture.refersTo, hid]
  | _ => simp [hg, Gesture.source?] at h

theorem endsOrContinues_remove (hs : s.Sound) (h : s.gesture ≠ .idle) (id : String) :
    s.EndsOrContinues (.remove id) (s.remove id).2 := by
  cases href : s.gesture.refersTo id with
  | true =>
    rw [remove_of_live (hs.live_of_refersTo href)]
    exact .inl ⟨href, by simp [without, href]⟩
  | false =>
    refine .of_same h (by simp [Ends, href]) rfl ?_
    by_cases hlive : id ∈ s.diagram.ids
    · rw [remove_of_live hlive]
      simp [without, href]
    · rw [remove_of_not_live hlive]

/-- Deleting the selected node, by whatever action. -/
theorem endsOrContinues_deleteSelected (hs : s.Sound) (h : s.gesture ≠ .idle) {a : Action α}
    (ha : s.Ends a ↔ s.EndsWithSelection) (hid : s.idAfter a = id) :
    s.EndsOrContinues a s.deleteSelected.2 := by
  cases hsel : s.selection.id with
  | none =>
    rw [deleteSelected_of_none hsel]
    refine .of_same h (fun hends => ?_) hid rfl
    obtain ⟨id, hsome, -⟩ := ha.1 hends
    simp [hsel] at hsome
  | some id =>
    rw [deleteSelected_of_live hsel (hs.selection id hsel)]
    cases href : s.gesture.refersTo id with
    | true => exact .inl ⟨ha.2 ⟨id, hsel, href⟩, by simp [without, href]⟩
    | false =>
      refine .of_same h (fun hends => ?_) hid (by simp [without, href])
      obtain ⟨x, hsome, hx⟩ := ha.1 hends
      obtain rfl : id = x := Option.some.inj (hsel ▸ hsome)
      simp [href] at hx

theorem endsOrContinues_key (hs : s.Sound) (h : s.gesture ≠ .idle) (k : Key) (typing : Bool) :
    s.EndsOrContinues (.key k typing) (s.key k typing).2 := by
  cases k with
  | escape =>
    refine .inl ⟨trivial, ?_⟩
    have hbusy : s.gesture.isIdle = false := Gesture.isIdle_eq_false_iff.2 h
    simp [Session.key, hbusy, Session.cancel]
  | delete =>
    cases typing with
    | true => exact .of_same h not_false rfl rfl
    | false => exact endsOrContinues_deleteSelected hs h .rfl rfl
  | backspace =>
    cases typing with
    | true => exact .of_same h not_false rfl rfl
    | false => exact endsOrContinues_deleteSelected hs h .rfl rfl
  | other => exact .of_same h not_false rfl rfl

theorem endsOrContinues_rename (h : s.gesture ≠ .idle) (id new : String) :
    s.EndsOrContinues (.rename id new) (s.rename id new).2 := by
  refine .inr ⟨not_false, ?_⟩
  simp only [idAfter, Session.rename]
  cases s.diagram.rename id new with
  | ok r => exact .renamed h id r.1
  | error x => exact .same h

/-! ## actions that have nothing to do with gestures -/

theorem gesture_dropLayer (s : Session α) (l : Layer) (p : Point α) :
    (s.dropLayer l p).2.gesture = s.gesture := by
  rcases dropLayer_snd s l p with hd | hd
  · rw [hd]
  · rw [hd, add_snd]

theorem gesture_step_of_leavesGesture {a : Action α} (ha : a.leavesGesture = true) :
    (s.step a).gesture = s.gesture := by
  cases a with
  | drop raw p =>
    simp only [step, perform, Prod.map_snd, id_eq]
    rcases drop_snd s raw p with hd | ⟨l, hd⟩
    · rw [hd]
    · rw [hd, gesture_dropLayer]
  | dropLayer l p => exact gesture_dropLayer s l p
  | add l p => simp [step, perform, add_snd]
  | update node name raw => simp [step, perform, update_snd]
  | reportWidth node w => simp [step, perform, reportWidth_snd]
  | reportScreenWidth node w => simp [step, perform, reportScreenWidth, reportWidth_snd]
  | toggle source target => simp [step, perform, toggle_snd]
  | select node =>
    simp only [step, perform, Session.select, Prod.map_snd, id_eq]
    split <;> rfl
  | wheel | zoomIn | zoomOut | resetView | clearSelection => rfl
  | _ => cases ha

/-- What neither presses nor moves ends the gesture or leaves it as it is, up to the names of its
nodes. -/
theorem gesture_step_of_not_pointer (hs : s.Sound) {a : Action α} (hpress : ∀ e, a ≠ .press e)
    (hmove : ∀ p, a ≠ .move p) :
    (s.step a).gesture = .idle ∨ (s.step a).gesture = s.gesture.mapIds (s.idAfter a) := by
  have hsame : ∀ {s' : Session α}, s'.gesture = s.gesture → s'.gesture = s.gesture.mapIds id :=
    fun hs' => hs'.trans s.gesture.mapIds_id.symm
  have hremove : ∀ node, (s.remove node).2.gesture = .idle ∨
      (s.remove node).2.gesture = s.gesture.mapIds id := by
    intro node
    by_cases hlive : node ∈ s.diagram.ids
    · rw [remove_of_live hlive, without]
      split
      · exact .inl rfl
      · exact .inr (hsame rfl)
    · rw [remove_of_not_live hlive]
      exact .inr (hsame rfl)
  have hdelete : s.deleteSelected.2.gesture = .idle ∨
      s.deleteSelected.2.gesture = s.gesture.mapIds id := by
    cases hsel : s.selection.id with
    | none =>
      rw [deleteSelected_of_none hsel]
      exact .inr (hsame rfl)
    | some node =>
      have h := hremove node
      rw [remove_of_live (hs.selection node hsel)] at h
      rw [deleteSelected_of_live hsel (hs.selection node hsel)]
      exact h
  cases a with
  | press e => exact absurd rfl (hpress e)
  | move p => exact absurd rfl (hmove p)
  | release p target => exact .inl (gesture_release s p target)
  | cancel => exact .inl rfl
  | key k typing =>
    simp only [step, perform, Prod.map_snd, id_eq]
    cases k with
    | escape =>
      simp only [Session.key]
      split
      · exact .inr (hsame rfl)
      · exact .inl rfl
    | delete => cases typing with
      | true => exact .inr (hsame rfl)
      | false => exact hdelete
    | backspace => cases typing with
      | true => exact .inr (hsame rfl)
      | false => exact hdelete
    | other => exact .inr (hsame rfl)
  | rename node new =>
    right
    simp only [step, perform, idAfter, Prod.map_snd, id_eq, Session.rename]
    cases s.diagram.rename node new with
    | ok r => exact s.gesture.rename_eq_mapIds node r.1
    | error x => exact hsame rfl
  | remove node => exact hremove node
  | deleteSelected => exact hdelete
  | _ => exact .inr (hsame (gesture_step_of_leavesGesture rfl))

theorem EndsOrContinues.of_leavesGesture {a : Action α} (h : s.gesture ≠ .idle)
    (ha : a.leavesGesture = true) : s.EndsOrContinues a (s.step a) := by
  refine .of_same h (fun hends => ?_) ?_ (gesture_step_of_leavesGesture ha)
  · cases a <;> first | exact hends | cases ha
  · cases a <;> first | rfl | cases ha

/-! ## the state machine -/

/-- **Every action ends the gesture or lets it go on.** -/
theorem endsOrContinues_step (hs : s.Sound) (h : s.gesture ≠ .idle) (a : Action α) :
    s.EndsOrContinues a (s.step a) := by
  cases a with
  | press e =>
    rw [show s.step (.press e) = s from press_of_busy h e]
    exact .of_same h not_false rfl rfl
  | move p => exact endsOrContinues_move hs h p
  | release p target => exact .inl ⟨trivial, gesture_release s p target⟩
  | cancel => exact .inl ⟨trivial, rfl⟩
  | key k typing => exact endsOrContinues_key hs h k typing
  | rename node new => rw [step_rename]; exact endsOrContinues_rename h node new
  | remove node => exact endsOrContinues_remove hs h node
  | deleteSelected => exact endsOrContinues_deleteSelected hs h .rfl rfl
  | _ => exact .of_leavesGesture h rfl

/-- Without a gesture, nothing but a press at a finite place begins one. -/
theorem gesture_step_of_idle (hs : s.Sound) (hidle : s.gesture = .idle) {a : Action α}
    (ha : ∀ e, a = .press e → e.place.isFinite = false) : (s.step a).gesture = .idle := by
  have hremove : ∀ id, (s.remove id).2.gesture = .idle := by
    intro id
    by_cases hlive : id ∈ s.diagram.ids
    · rw [remove_of_live hlive]
      simp [without, hidle]
    · rw [remove_of_not_live hlive, hidle]
  have hdelete : s.deleteSelected.2.gesture = .idle := by
    cases hsel : s.selection.id with
    | none => rw [deleteSelected_of_none hsel, hidle]
    | some id =>
      rw [deleteSelected_of_live hsel (hs.selection id hsel)]
      simp [without, hidle]
  cases a with
  | press e => rw [show s.step (.press e) = s from press_of_not_finite (ha e rfl), hidle]
  | move p => rw [show s.step (.move p) = s from move_idle hidle p, hidle]
  | release p target => exact gesture_release s p target
  | cancel => rfl
  | key k typing =>
    simp only [step, perform, Prod.map_snd, id_eq]
    cases k with
    | escape => simp [Session.key, hidle, Gesture.isIdle]
    | delete => cases typing with
      | true => exact hidle
      | false => exact hdelete
    | backspace => cases typing with
      | true => exact hidle
      | false => exact hdelete
    | other => exact hidle
  | rename node new =>
    simp only [step, perform, Prod.map_snd, id_eq, Session.rename]
    cases s.diagram.rename node new with
    | ok r => simp [hidle, Gesture.rename]
    | error x => exact hidle
  | remove node => exact hremove node
  | deleteSelected => exact hdelete
  | _ => rw [gesture_step_of_leavesGesture rfl, hidle]

/-- Only a press begins to draw a link. -/
theorem source?_step_of_none (hs : s.Sound) (h : s.gesture.source? = none) {a : Action α}
    (ha : ∀ e, a ≠ .press e) : (s.step a).gesture.source? = none := by
  by_cases hidle : s.gesture = .idle
  · rw [gesture_step_of_idle hs hidle fun e he => absurd he (ha e)]
    rfl
  · rcases endsOrContinues_step hs hidle a with ⟨-, hg⟩ | ⟨-, hg⟩
    · rw [hg]
      rfl
    · rw [hg.source?_eq, h, Option.map_none]

variable {supply : List String}

/-- **The gestures of a session.**  Without a gesture, one is begun by a press at a finite place on
the canvas, on a node or on its output, and by nothing else.  During a gesture presses do nothing at
all; what ends it is listed in `Ends`, and under every other action it goes on with what it
captured.  The nodes that a gesture refers to are there all the time: a node being moved takes every
place that is one, and a link being drawn has a preview everywhere. -/
theorem gesture_transitions (hs : Reached supply s) :
    (s.gesture = .idle → ∀ (a : Action α) (g : Gesture α), g ≠ .idle →
      ((s.step a).gesture = g ↔ ∃ e, a = .press e ∧ e.place.isFinite = true ∧ s.Begins e g)) ∧
    (s.gesture ≠ .idle → (∀ e, s.step (.press e) = s) ∧
      ∀ a, ((s.step a).gesture = .idle ↔ s.Ends a) ∧
        (¬ s.Ends a → Gesture.Continues (s.idAfter a) s.gesture (s.step a).gesture)) ∧
    (∀ p target, (s.release p target).gesture = .idle) ∧
    (∀ node, s.gesture.dragged? = some node → s.diagram.isLive node = true ∧
      ∀ q, q.isFinite = true → ∃ d, s.diagram.setPosition node q = .ok d) ∧
    ∀ source, s.gesture.source? = some source → s.diagram.isLive source = true ∧
      ∀ p, ∃ preview snap, s.previewTo source p = some (preview, snap) := by
  have hsound := hs.sound
  refine ⟨fun hidle a g hg => ⟨fun hstep => ?_, ?_⟩, fun h => ⟨press_of_busy h, fun a => ?_⟩,
    gesture_release s, ?_, ?_⟩
  · -- what begins a gesture is a press at a finite place
    by_cases ha : ∀ e, a = .press e → e.place.isFinite = false
    · exact absurd (hstep.symm.trans (gesture_step_of_idle hsound hidle ha)) hg
    · push Not at ha
      obtain ⟨e, rfl, hp⟩ := ha
      have hfinite : e.place.isFinite = true := by simpa using hp
      rcases gesture_press hidle hfinite with hbegins | ⟨hnone, -⟩
      · exact ⟨e, rfl, hfinite, hstep ▸ hbegins⟩
      · exact absurd (hstep.symm.trans hnone) hg
  · rintro ⟨e, rfl, hp, hbegins⟩
    rcases gesture_press hidle hp with hbegins' | ⟨-, hno⟩
    · exact hbegins'.unique hbegins
    · exact absurd hbegins (hno g)
  · rcases endsOrContinues_step hsound h a with ⟨hends, hg⟩ | ⟨hgoes, hg⟩
    · exact ⟨⟨fun _ => hends, fun _ => hg⟩, fun hgoes => absurd hends hgoes⟩
    · exact ⟨⟨fun hidle => absurd hidle hg.ne_idle, fun hends => absurd hends hgoes⟩, fun _ => hg⟩
  · intro node hnode
    have hlive : s.diagram.isLive node = true :=
      Diagram.isLive_iff.2 (hsound.live_of_dragged hnode)
    exact ⟨hlive, fun q hq => ⟨_, Diagram.setPosition_eq_ok_iff.2 ⟨hq, hlive, rfl⟩⟩⟩
  · intro source hsource
    have hlive := hsound.live_of_source hsource
    exact ⟨Diagram.isLive_iff.2 hlive, exists_previewTo hlive⟩

/-- A node is being moved, the view is zoomed out, and the pointer is taken so far away that there is
no such place in the diagram. -/
theorem gesture_transitions_astray :
    ∃ s : Session Float32, Reached ["a"] s ∧ s.gesture.dragged? = some "a" ∧
      s.Ends (.move ⟨3e38, 0.0⟩) ∧ (s.step (.move ⟨3e38, 0.0⟩)).gesture = .idle ∧
      s.step (.press ⟨⟨0.0, 0.0⟩, .middle, false, .canvas⟩) = s := by
  let es : List (Edit Float32) := [.add .linear ⟨0.0, 0.0⟩]
  let as : List (Action Float32) :=
    [.press ⟨⟨10.0, 10.0⟩, .primary, false, .body "a"⟩, .wheel ⟨0.0, 0.0⟩ 2000.0]
  obtain ⟨s₀, hopen⟩ := exists_open? .initial ((Diagram.empty ["a"]).run es)
  have hgesture : (open? .initial ((Diagram.empty ["a"]).run es)).map
      (fun s₀ => (s₀.run as).gesture) =
        some (.dragging "a" ⟨10.0, 10.0⟩ ⟨10.0, 10.0⟩ false) := by decide +kernel
  have hplace : (open? .initial ((Diagram.empty ["a"]).run es)).map
      (fun s₀ => ((s₀.run as).viewport.toGraph ⟨3e38, 0.0⟩ - ⟨10.0, 10.0⟩).isFinite) =
        some false := by decide +kernel
  rw [hopen, Option.map_some, Option.some.injEq] at hgesture hplace
  have hs : Reached ["a"] (s₀.run as) := ⟨.initial, es, s₀, as, hopen, rfl⟩
  have hends : (s₀.run as).Ends (.move ⟨3e38, 0.0⟩) :=
    ⟨by decide +kernel, "a", _, _, _, hgesture, hplace⟩
  obtain ⟨hpress, hstep⟩ := (gesture_transitions hs).2.1 (by simp [hgesture])
  exact ⟨s₀.run as, hs, by rw [hgesture]; rfl, hends, (hstep _).1.2 hends, hpress _⟩

end Session

end Wireboard
