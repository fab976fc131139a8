import Wireboard.Proofs.Session.Transitions

/-!
# How long a preview stays true

The preview of a link is kept in screen coordinates.  It is drawn by the press that begins the link and
by the moves that follow, and by nothing else.  The pins that it joins are where nodes and view put them
at every moment.

* `PreviewCurrent s`: the preview of the link being drawn begins at the output of its source and
  ends at the input that it has snapped to, where these are on the screen now;
* `joined s`: where these two pins are on the screen;
* `draws s a`, `undrawn s as`: the action draws the preview, and no action of the run does;
* `exists_last_draw`: whenever there is a link, some action was the last that drew its preview;
* `previewCurrent_iff`: a preview is current when it is drawn.  Later it is current exactly when the
  two pins are where they were then, and so they are unless the view or a width has changed.
-/

set_option linter.unusedSectionVars false

namespace Wireboard

variable {α : Type}

/-- The actions that change neither the view nor a width, presses and moves aside. -/
def Action.keepsView : Action α → Bool
  | .wheel .. | .zoomIn _ | .zoomOut _ | .resetView | .reportWidth .. | .reportScreenWidth .. => false
  | _ => true

/-- What of a node decides where its pins are. -/
def Diagram.box? (d : Diagram α) (id : String) : Option (Point α × Option α) :=
  (d.node? id).map fun n => (n.position, n.width)

namespace Session

variable [Scalar α] {s s' : Session α} {supply : List String}

/-- Where the pin of a node is on the screen. -/
def pinOnScreen (s : Session α) (pin : Pin) (id : String) : Option (Point α) :=
  (s.diagram.node? id).map fun n => s.viewport.toScreen (s.settings.pinPlace n pin)

/-- The preview of the link being drawn joins the two pins where they are on the screen now. -/
def PreviewCurrent (s : Session α) : Prop :=
  ∀ source preview snap, s.gesture = .wiring source preview snap →
    ∃ shown, preview = some shown ∧ s.pinOnScreen .output source = some shown.start ∧
      ∀ t, snap = some t → s.pinOnScreen .input t = some shown.stop

/-- Where the pins are that the link being drawn joins: the output of its source, and the input that
it has snapped to. -/
def joined (s : Session α) : Option (Point α) × Option (Point α) :=
  (s.gesture.source?.bind (s.pinOnScreen .output), s.gesture.snap?.bind (s.pinOnScreen .input))

/-! ## drawing -/

/-- The action draws a preview: it is the press that begins a link, or a move while there is one. -/
def draws (s : Session α) : Action α → Bool
  | .press e => s.gesture.isIdle && (s.press e).gesture.source?.isSome
  | .move p => p.isFinite && s.gesture.source?.isSome
  | _ => false

/-- No action of the run draws a preview, each in the session that it comes to. -/
def undrawn (s : Session α) : List (Action α) → Bool
  | [] => true
  | a :: as => !s.draws a && (s.step a).undrawn as

theorem undrawn_cons {a : Action α} {as : List (Action α)} :
    s.undrawn (a :: as) = true ↔ s.draws a = false ∧ (s.step a).undrawn as = true := by
  rw [undrawn, Bool.and_eq_true, Bool.not_eq_true']

theorem undrawn_append (s : Session α) (as bs : List (Action α)) :
    s.undrawn (as ++ bs) = (s.undrawn as && (s.run as).undrawn bs) := by
  induction as generalizing s with
  | nil => rfl
  | cons a as ih =>
    rw [List.cons_append, undrawn, undrawn, ih, Bool.and_assoc]
    rfl

theorem PreviewCurrent.of_source?_eq_none (h : s.gesture.source? = none) : s.PreviewCurrent := by
  intro source preview snap hg
  simp [hg, Gesture.source?] at h

theorem PreviewCurrent.of_previewTo (hs : s.Sound) {source : String} {p : Point α}
    {shown : Preview α} {snap : Option String} (h : s.previewTo source p = some (shown, snap)) :
    PreviewCurrent { s with gesture := .wiring source (some shown) snap } := by
  intro source' preview' snap' hg
  cases hg
  obtain ⟨n, hn⟩ := Diagram.exists_node? (Diagram.isLive_iff.2 (previewTo_eq_some h).1)
  rw [previewTo_of_node hn] at h
  obtain ⟨rfl, rfl⟩ := Prod.mk.inj (Option.some.inj h)
  refine ⟨_, rfl, by simp [pinOnScreen, hn], ?_⟩
  intro t ht
  obtain ⟨⟨a, dist⟩, ha, rfl⟩ := Option.map_eq_some_iff.1 ht
  obtain ⟨-, m, hm, hid, hplace⟩ := inputNear_eq_some ha
  have hfound : s.diagram.node? a.node = some m := hid ▸ Diagram.node?_of_mem hs.diagram.ids_nodup hm
  simp [pinOnScreen, hfound, ha, hplace]

/-- A press that begins a link shows a current preview, and so does every move after it. -/
theorem previewCurrent_step_of_draws (hs : s.Sound) {a : Action α} (ha : s.draws a = true) :
    (s.step a).PreviewCurrent := by
  cases a with
  | press e =>
    simp only [draws, Bool.and_eq_true, Gesture.isIdle_iff] at ha
    obtain ⟨hidle, hlink⟩ := ha
    cases hp : e.place.isFinite with
    | false =>
      rw [press_of_not_finite hp, hidle] at hlink
      cases hlink
    | true =>
      obtain ⟨g, hg⟩ : ∃ g, (s.press e).gesture = g := ⟨_, rfl⟩
      rcases gesture_press hidle hp with hbegins | ⟨hnone, -⟩
      · rw [hg] at hbegins
        cases hbegins with
        | wire p ctrl live shown =>
          rw [show s.step (.press _) = _ from press_output hidle hp shown]
          exact .of_previewTo hs shown
        | _ => exact .of_source?_eq_none (congrArg Gesture.source? hg)
      · exact .of_source?_eq_none (congrArg Gesture.source? hnone)
  | move p =>
    simp only [draws, Bool.and_eq_true] at ha
    obtain ⟨hp, hlink⟩ := ha
    cases hg : s.gesture with
    | wiring source preview snap =>
      have hsound := hs.gesture
      rw [hg] at hsound
      obtain ⟨shown, target, hshown⟩ := exists_previewTo hsound.1 p
      rw [show s.step (.move p) = _ from move_wiring hp hg hshown]
      exact .of_previewTo hs hshown
    | _ =>
      rw [hg] at hlink
      cases hlink
  | _ => cases ha

/-- Without a link, what does not draw one leaves none. -/
theorem source?_step_of_not_draws (hs : s.Sound) (h : s.gesture.source? = none) {a : Action α}
    (ha : s.draws a = false) : (s.step a).gesture.source? = none := by
  cases a with
  | press e =>
    by_cases hidle : s.gesture = .idle
    · rw [draws, Gesture.isIdle_iff.2 hidle, Bool.true_and] at ha
      exact Option.isNone_iff_eq_none.1 (Option.isSome_eq_false_iff.1 ha)
    · rw [show s.step (.press e) = s from press_of_busy hidle e, h]
  | _ => exact source?_step_of_none hs h fun e he => by cases he

/-- While there is a link, presses mean nothing, and nor do moves that do not draw it. -/
theorem step_pointer_of_wiring {source : String} {preview : Option (Preview α)}
    {snap : Option String} (hg : s.gesture = .wiring source preview snap) {a : Action α}
    (ha : (∃ e, a = .press e) ∨ ∃ p, a = .move p) (hdraws : s.draws a = false) : s.step a = s := by
  rcases ha with ⟨e, rfl⟩ | ⟨p, rfl⟩
  · exact press_of_busy (by simp [hg]) e
  · have hp : p.isFinite = false := by simpa [draws, hg, Gesture.source?] using hdraws
    exact move_of_not_finite hp

/-! ## keeping it -/

/-- Between `s` and `s'` neither the view has changed nor what decides where pins are, for the nodes
that are still there. -/
structure KeepsPins (f : String → String) (s s' : Session α) : Prop where
  settings : s'.settings = s.settings
  viewport : s'.viewport = s.viewport
  box : ∀ id ∈ s.diagram.ids, f id ∈ s'.diagram.ids →
    s'.diagram.box? (f id) = s.diagram.box? id

theorem KeepsPins.of_eq (hsettings : s'.settings = s.settings) (hviewport : s'.viewport = s.viewport)
    (hdiagram : s'.diagram = s.diagram) : KeepsPins id s s' :=
  ⟨hsettings, hviewport, fun x _ _ => by rw [hdiagram]; rfl⟩

theorem KeepsPins.pinOnScreen_eq {f : String → String} (h : KeepsPins f s s') (pin : Pin)
    {id : String} (hid : id ∈ s.diagram.ids) (hid' : f id ∈ s'.diagram.ids) :
    s'.pinOnScreen pin (f id) = s.pinOnScreen pin id := by
  have hbox := h.box id hid hid'
  obtain ⟨n, hn⟩ := Diagram.exists_node? (Diagram.isLive_iff.2 hid)
  obtain ⟨n', hn'⟩ := Diagram.exists_node? (Diagram.isLive_iff.2 hid')
  rw [Diagram.box?, Diagram.box?, hn, hn', Option.map_some, Option.map_some, Option.some.injEq,
    Prod.mk.injEq] at hbox
  obtain ⟨hposition, hwidth⟩ := hbox
  have hplace : s'.settings.pinPlace n' pin = s.settings.pinPlace n pin := by
    cases pin <;> simp [Settings.pinPlace, Settings.widthOf, h.settings, hposition, hwidth]
  rw [pinOnScreen, pinOnScreen, hn, hn', Option.map_some, Option.map_some, hplace, h.viewport]

theorem keepsPins_add (s : Session α) (l : Layer) (p : Point α) :
    KeepsPins id s (s.add l p).2 := by
  unfold Session.add
  cases hd : s.diagram.add l p with
  | error x => exact .of_eq rfl rfl rfl
  | ok r =>
    obtain ⟨n, d⟩ := r
    obtain ⟨-, -, rest, -, rfl⟩ := Diagram.add_eq_ok hd
    refine ⟨rfl, rfl, fun x hx _ => ?_⟩
    simp only [Diagram.box?, id_eq, Diagram.node?_append _ _ _ hx]

theorem keepsPins_dropLayer (s : Session α) (l : Layer) (p : Point α) :
    KeepsPins id s (s.dropLayer l p).2 := by
  rcases dropLayer_snd s l p with hd | hd
  · rw [hd]; exact .of_eq rfl rfl rfl
  · rw [hd]; exact keepsPins_add s l _

theorem keepsPins_drop (s : Session α) (raw : String) (p : Point α) :
    KeepsPins id s (s.drop raw p).2 := by
  rcases drop_snd s raw p with hd | ⟨l, hd⟩
  · rw [hd]; exact .of_eq rfl rfl rfl
  · rw [hd]; exact keepsPins_dropLayer s l p

theorem keepsPins_rename (hs : s.Sound) (node new : String) :
    KeepsPins (s.idAfter (.rename node new)) s (s.rename node new).2 := by
  simp only [idAfter, Session.rename]
  cases hd : s.diagram.rename node new with
  | error x => exact .of_eq rfl rfl rfl
  | ok r =>
    obtain ⟨name, d⟩ := r
    obtain ⟨-, -, -, hfree, rfl⟩ := Diagram.rename_eq_ok_iff.1 hd
    refine ⟨rfl, rfl, fun x hx _ => ?_⟩
    obtain ⟨n, hn⟩ := Diagram.exists_node? (Diagram.isLive_iff.2 hx)
    rw [Diagram.box?, Diagram.box?, hs.diagram.node?_renamed hfree hn, hn]
    simp only [Option.map_some]
    split <;> rfl

theorem keepsPins_update (s : Session α) (node name raw : String) :
    KeepsPins id s (s.update node name raw).2 := by
  unfold Session.update
  cases hd : s.diagram.update node name raw with
  | error x => exact .of_eq rfl rfl rfl
  | ok r =>
    obtain ⟨v, d⟩ := r
    obtain ⟨n, -, -, rfl⟩ := Diagram.update_eq_ok hd
    refine ⟨rfl, rfl, fun x hx _ => ?_⟩
    have hkeeps : ∀ m : Node α, { m with params := m.params.insert name v }.id = m.id := fun _ => rfl
    simp only [Diagram.box?, id_eq, Diagram.node?_modify _ hkeeps, Option.map_map]
    refine Option.map_congr fun m _ => ?_
    simp only [Function.comp_apply]
    split <;> rfl

theorem keepsPins_toggle (s : Session α) (source target : String) :
    KeepsPins id s (s.toggle source target).2 := by
  unfold Session.toggle
  cases hd : s.diagram.toggle source target with
  | error x => exact .of_eq rfl rfl rfl
  | ok r =>
    obtain ⟨t, d⟩ := r
    obtain ⟨-, -, -, -, rfl⟩ := Diagram.toggle_eq_ok_iff.1 hd
    refine ⟨rfl, rfl, fun x hx _ => ?_⟩
    simp only [Diagram.box?, id_eq, Diagram.node?_flipped]

theorem keepsPins_without (s : Session α) (node : String) : KeepsPins id s (s.without node) := by
  refine ⟨rfl, rfl, fun x _ hx => ?_⟩
  have hne : x ≠ node := (Diagram.mem_ids_without.1 hx).2
  exact congrArg (Option.map _) (Diagram.node?_without s.diagram hne)

theorem keepsPins_remove (s : Session α) (node : String) : KeepsPins id s (s.remove node).2 := by
  by_cases hlive : node ∈ s.diagram.ids
  · rw [remove_of_live hlive]; exact keepsPins_without s node
  · rw [remove_of_not_live hlive]; exact .of_eq rfl rfl rfl

theorem keepsPins_deleteSelected (hs : s.Sound) : KeepsPins id s s.deleteSelected.2 := by
  cases hsel : s.selection.id with
  | none => rw [deleteSelected_of_none hsel]; exact .of_eq rfl rfl rfl
  | some node =>
    rw [deleteSelected_of_live hsel (hs.selection node hsel)]
    obtain ⟨hsettings, hviewport, hbox⟩ := keepsPins_without { s with selection := .none } node
    exact ⟨hsettings, hviewport, hbox⟩

theorem keepsPins_key (hs : s.Sound) (k : Key) (typing : Bool) :
    KeepsPins id s (s.key k typing).2 := by
  have hdelete : KeepsPins id s (if typing then (false, s) else s.deleteSelected).2 := by
    split
    · exact .of_eq rfl rfl rfl
    · exact keepsPins_deleteSelected hs
  cases k with
  | escape =>
    simp only [Session.key]
    split <;> exact .of_eq rfl rfl rfl
  | delete => exact hdelete
  | backspace => exact hdelete
  | other => exact .of_eq rfl rfl rfl

/-- While a link is being drawn, only a change of the view or of a width puts pins elsewhere. -/
theorem keepsPins_step (hs : s.Sound) {source : String} {preview : Option (Preview α)}
    {snap : Option String} (hg : s.gesture = .wiring source preview snap) {a : Action α}
    (hdraws : s.draws a = false) (hview : a.keepsView = true)
    (hbusy : (s.step a).gesture ≠ .idle) : KeepsPins (s.idAfter a) s (s.step a) := by
  cases a with
  | press e =>
    rw [step_pointer_of_wiring hg (.inl ⟨e, rfl⟩) hdraws]
    exact .of_eq rfl rfl rfl
  | move p =>
    rw [step_pointer_of_wiring hg (.inr ⟨p, rfl⟩) hdraws]
    exact .of_eq rfl rfl rfl
  | release p target => exact absurd (gesture_release s p target) hbusy
  | cancel => exact .of_eq rfl rfl rfl
  | key k typing => exact keepsPins_key hs k typing
  | drop raw p => exact keepsPins_drop s raw p
  | dropLayer l p => exact keepsPins_dropLayer s l p
  | add l p => exact keepsPins_add s l p
  | rename node new => rw [step_rename]; exact keepsPins_rename hs node new
  | update node name raw => exact keepsPins_update s node name raw
  | toggle source target => exact keepsPins_toggle s source target
  | remove node => exact keepsPins_remove s node
  | deleteSelected => exact keepsPins_deleteSelected hs
  | select node =>
    simp only [step, perform, Session.select, Prod.map_snd, id_eq]
    split <;> exact .of_eq rfl rfl rfl
  | clearSelection => exact .of_eq rfl rfl rfl
  | _ => cases hview

/-! ## a link being drawn -/

/-- What does not draw the link ends it or leaves its preview as it is. -/
theorem gesture_step_of_wiring (hs : s.Sound) {source : String} {preview : Option (Preview α)}
    {snap : Option String} (hg : s.gesture = .wiring source preview snap) {a : Action α}
    (hdraws : s.draws a = false) :
    (s.step a).gesture = .idle ∨
      (s.step a).gesture = .wiring (s.idAfter a source) preview (snap.map (s.idAfter a)) := by
  have hnamed : ∀ rename, s.gesture.mapIds rename =
      .wiring (rename source) preview (snap.map rename) := fun rename => by rw [hg]; rfl
  rw [← hnamed]
  cases a with
  | press e =>
    rw [step_pointer_of_wiring hg (.inl ⟨e, rfl⟩) hdraws]
    exact .inr s.gesture.mapIds_id.symm
  | move p =>
    rw [step_pointer_of_wiring hg (.inr ⟨p, rfl⟩) hdraws]
    exact .inr s.gesture.mapIds_id.symm
  | _ => exact gesture_step_of_not_pointer hs (fun e he => by cases he) fun p hp => by cases hp

theorem joined_of_wiring {source : String} {preview : Option (Preview α)} {snap : Option String}
    (hg : s.gesture = .wiring source preview snap) :
    s.joined = (s.pinOnScreen .output source, snap.bind (s.pinOnScreen .input)) := by
  rw [joined, hg]
  rfl

/-- A preview is current when it joins the two pins. -/
theorem previewCurrent_iff_joined {source : String} {shown : Preview α}
    {snap : Option String} (hg : s.gesture = .wiring source (some shown) snap) :
    s.PreviewCurrent ↔ s.joined = (some shown.start, snap.map fun _ => shown.stop) := by
  rw [joined_of_wiring hg, Prod.mk.injEq]
  constructor
  · intro h
    obtain ⟨shown', hshown, hstart, hstop⟩ := h _ _ _ hg
    obtain rfl : shown = shown' := Option.some.inj hshown
    refine ⟨hstart, ?_⟩
    cases snap with
    | none => rfl
    | some t => exact hstop t rfl
  · rintro ⟨hstart, hstop⟩ source' preview' snap' hg'
    rw [hg] at hg'
    cases hg'
    refine ⟨shown, rfl, hstart, ?_⟩
    rintro t rfl
    exact hstop

theorem joined_step (hs : s.Sound) {source : String} {preview : Option (Preview α)}
    {snap : Option String} (hg : s.gesture = .wiring source preview snap) {a : Action α}
    (hdraws : s.draws a = false) (hview : a.keepsView = true)
    (hbusy : (s.step a).gesture ≠ .idle) : (s.step a).joined = s.joined := by
  have hkeeps := keepsPins_step hs hg hdraws hview hbusy
  have hlive := hs.gesture
  have hlive' := (hs.step a).gesture
  have hg' := (gesture_step_of_wiring hs hg hdraws).resolve_left hbusy
  rw [hg] at hlive
  rw [hg'] at hlive'
  rw [joined_of_wiring hg, joined_of_wiring hg', hkeeps.pinOnScreen_eq .output hlive.1 hlive'.1]
  cases snap with
  | none => rfl
  | some t =>
    have ht := (hlive.2.2 t rfl).1
    have ht' := (hlive'.2.2 _ rfl).1
    exact congrArg _ (hkeeps.pinOnScreen_eq .input ht ht')

/-! ## runs -/

theorem source?_run_of_undrawn (hs : s.Sound) (h : s.gesture.source? = none) {as : List (Action α)}
    (has : s.undrawn as = true) : (s.run as).gesture.source? = none := by
  induction as generalizing s with
  | nil => exact h
  | cons a as ih =>
    obtain ⟨ha, has⟩ := undrawn_cons.1 has
    exact ih (hs.step a) (source?_step_of_not_draws hs h ha) has

/-- Through actions that do not draw it, a link keeps its preview, and what it has snapped to.  Its
pins stay in their places unless the view or a width changes. -/
theorem run_of_wiring (hs : s.Sound) {source : String} {shown : Preview α} {snap : Option String}
    (hg : s.gesture = .wiring source (some shown) snap) {as : List (Action α)}
    (has : s.undrawn as = true) :
    (s.run as).gesture.source? = none ∨
      ∃ source' snap', (s.run as).gesture = .wiring source' (some shown) snap' ∧
        snap'.isSome = snap.isSome ∧
        ((∀ a ∈ as, a.keepsView = true) → (s.run as).joined = s.joined) := by
  induction as generalizing s source snap with
  | nil => exact .inr ⟨source, snap, hg, rfl, fun _ => rfl⟩
  | cons a as ih =>
    obtain ⟨hdraws, has⟩ := undrawn_cons.1 has
    rcases gesture_step_of_wiring hs hg hdraws with hidle | hg'
    · left
      exact source?_run_of_undrawn (hs.step a) (by rw [hidle]; rfl) has
    · rcases ih (hs.step a) hg' has with hnone | ⟨source', snap', hrun, hsnap, hjoined⟩
      · exact .inl hnone
      · refine .inr ⟨source', snap', hrun, by simpa using hsnap, fun hview => ?_⟩
        have hbusy : (s.step a).gesture ≠ .idle := by simp [hg']
        calc (s.run (a :: as)).joined
            = (s.step a).joined := hjoined fun b hb => hview b (List.mem_cons_of_mem _ hb)
          _ = s.joined := joined_step hs hg hdraws (hview a List.mem_cons_self) hbusy

/-- A preview that is current stays so, until it is drawn again, exactly as long as the two pins that
it joins are where they were. -/
theorem PreviewCurrent.run_iff (hs : s.Sound) (h : s.PreviewCurrent) {as : List (Action α)}
    (has : s.undrawn as = true) :
    ((s.run as).PreviewCurrent ↔
      (s.run as).gesture.source? = none ∨ (s.run as).joined = s.joined) ∧
    ((∀ b ∈ as, b.keepsView = true) → (s.run as).PreviewCurrent) := by
  by_cases hnone : (s.run as).gesture.source? = none
  · have hlater : (s.run as).PreviewCurrent := .of_source?_eq_none hnone
    exact ⟨⟨fun _ => .inl hnone, fun _ => hlater⟩, fun _ => hlater⟩
  obtain ⟨source, preview, snap, hg⟩ :
      ∃ source preview snap, s.gesture = .wiring source preview snap := by
    cases hg : s.gesture with
    | wiring source preview snap => exact ⟨source, preview, snap, rfl⟩
    | _ => exact absurd (source?_run_of_undrawn hs (by rw [hg]; rfl) has) hnone
  obtain ⟨shown, rfl, -⟩ := h _ _ _ hg
  obtain ⟨source', snap', hg', hsnap, hjoined⟩ := (run_of_wiring hs hg has).resolve_left hnone
  -- the preview is the one that was drawn, so it joins the same two places as then
  have hplaces : snap'.map (fun _ => shown.stop) = snap.map fun _ => shown.stop := by
    cases snap <;> cases snap' <;> simp_all
  have hiff : (s.run as).PreviewCurrent ↔ (s.run as).joined = s.joined := by
    rw [previewCurrent_iff_joined hg', (previewCurrent_iff_joined hg).1 h, hplaces]
  refine ⟨?_, fun hview => hiff.2 (hjoined hview)⟩
  rw [hiff]
  exact ⟨.inr, fun h => h.resolve_left hnone⟩

/-- Of every run, either nothing has drawn a preview, and there is no link, or some action was the last
that did. -/
theorem exists_last_draw (hs : Reached supply s) :
    s.gesture.source? = none ∨
      ∃ s₁ a as, Reached supply s₁ ∧ s₁.draws a = true ∧ (s₁.step a).undrawn as = true ∧
        (s₁.step a).run as = s := by
  obtain ⟨settings, es, s₀, as, hopen, rfl⟩ := hs
  -- along the run from its end, as the last action decides first
  induction as using List.reverseRecOn with
  | nil =>
    obtain ⟨v, -, rfl⟩ := Option.map_eq_some_iff.1 hopen
    exact .inl rfl
  | append_singleton as a ih =>
    have hs : Reached supply (s₀.run as) := ⟨settings, es, s₀, as, hopen, rfl⟩
    rw [run_append]
    cases ha : (s₀.run as).draws a with
    | true => exact .inr ⟨s₀.run as, a, [], hs, ha, rfl, rfl⟩
    | false =>
      rcases ih with hnone | ⟨s₁, b, bs, hs₁, hb, hbs, hrun⟩
      · exact .inl (source?_step_of_not_draws hs.sound hnone ha)
      · refine .inr ⟨s₁, b, bs ++ [a], hs₁, hb, ?_, by rw [run_append, hrun]⟩
        rw [undrawn_append, hbs, hrun, Bool.true_and]
        exact undrawn_cons.2 ⟨ha, rfl⟩

/-- **When a preview is current.**  It is current when the press that begins the link or a move has
drawn it, and while there is a link, some press or move was the last that did.  From a moment at which
it is current until it is drawn again, whatever else is done, presses during the gesture included, it is
current exactly as long as the two pins that it joins are where they were, so as long as neither the view
nor a width changes. -/
theorem previewCurrent_iff (hs : Reached supply s) :
    (∀ a, s.draws a = true → (s.step a).PreviewCurrent) ∧
    (s.gesture.source? = none ∨
      ∃ s₁ a as, Reached supply s₁ ∧ s₁.draws a = true ∧ (s₁.step a).undrawn as = true ∧
        (s₁.step a).run as = s) ∧
    (s.PreviewCurrent → ∀ as, s.undrawn as = true →
      ((s.run as).PreviewCurrent ↔
        (s.run as).gesture.source? = none ∨ (s.run as).joined = s.joined) ∧
      ((∀ b ∈ as, b.keepsView = true) → (s.run as).PreviewCurrent)) :=
  ⟨fun _ ha => previewCurrent_step_of_draws hs.sound ha, exists_last_draw hs,
    fun h _ has => h.run_iff hs.sound has⟩

/-- A link has snapped to a node.  Another button is pressed, the node is renamed, and other edits are
made meanwhile. -/
theorem previewCurrent_iff_edited :
    ∃ s : Session Float32, Reached ["a", "b"] s ∧ s.gesture.snap? = some "out" ∧
      s.PreviewCurrent := by
  let es : List (Edit Float32) := [.add .linear ⟨0.0, 0.0⟩, .add .linear ⟨400.0, 0.0⟩]
  let as : List (Action Float32) := [.press ⟨⟨278.0, 50.0⟩, .primary, false, .output "a"⟩]
  let draw : Action Float32 := .move ⟨390.0, 55.0⟩
  let bs : List (Action Float32) :=
    [.press ⟨⟨390.0, 55.0⟩, .middle, false, .canvas⟩, .rename "b" " out ", .toggle "out" "a",
      .move ⟨0.0 / 0.0, 0.0⟩]
  obtain ⟨s, hopen⟩ := exists_open? .initial ((Diagram.empty ["a", "b"]).run es)
  have hstate : (open? .initial ((Diagram.empty ["a", "b"]).run es)).map
      (fun s => ((s.run as).draws draw, ((s.run as).step draw).undrawn bs,
        (((s.run as).step draw).run bs).gesture.snap?)) = some (true, true, some "out") := by
    decide +kernel
  rw [hopen, Option.map_some, Option.some.injEq, Prod.mk.injEq, Prod.mk.injEq] at hstate
  obtain ⟨hdraw, hbs, hsnap⟩ := hstate
  have hs : Reached ["a", "b"] (s.run as) := ⟨.initial, es, s, as, hopen, rfl⟩
  have hdrawn : ((s.run as).step draw).PreviewCurrent := (previewCurrent_iff hs).1 draw hdraw
  obtain ⟨-, -, hlater⟩ := previewCurrent_iff (hs.step draw)
  have hview : ∀ b ∈ bs, b.keepsView = true := by simp [bs, Action.keepsView]
  exact ⟨_, (hs.step draw).run bs, hsnap, (hlater hdrawn bs hbs).2 hview⟩

/-- A link has snapped to a node and the view is zoomed: both pins have moved on the screen, and the
preview has not. -/
theorem not_previewCurrent_zoomed :
    ∃ s : Session Float32, Reached ["a", "b"] s ∧
      s.gesture = .wiring "a" (some ⟨⟨278.0, 50.0⟩, ⟨392.0, 50.0⟩, true⟩) (some "b") ∧
      s.pinOnScreen .output "a" = some ⟨417.0, 75.0⟩ ∧
      s.pinOnScreen .input "b" = some ⟨588.0, 75.0⟩ ∧ ¬ s.PreviewCurrent := by
  let es : List (Edit Float32) := [.add .linear ⟨0.0, 0.0⟩, .add .linear ⟨400.0, 0.0⟩]
  let as : List (Action Float32) :=
    [.press ⟨⟨278.0, 50.0⟩, .primary, false, .output "a"⟩, .move ⟨390.0, 55.0⟩,
      .wheel ⟨0.0, 0.0⟩ (-500.0)]
  obtain ⟨s, hopen⟩ := exists_open? .initial ((Diagram.empty ["a", "b"]).run es)
  have hstate : (open? .initial ((Diagram.empty ["a", "b"]).run es)).map
      (fun s => ((s.run as).gesture, (s.run as).pinOnScreen .output "a",
        (s.run as).pinOnScreen .input "b")) =
      some (.wiring "a" (some ⟨⟨278.0, 50.0⟩, ⟨392.0, 50.0⟩, true⟩) (some "b"),
        some ⟨417.0, 75.0⟩, some ⟨588.0, 75.0⟩) := by decide +kernel
  rw [hopen, Option.map_some, Option.some.injEq, Prod.mk.injEq, Prod.mk.injEq] at hstate
  obtain ⟨hg, hstart, hstop⟩ := hstate
  refine ⟨s.run as, ⟨.initial, es, s, as, hopen, rfl⟩, hg, hstart, hstop, fun hcurrent => ?_⟩
  obtain ⟨shown, hshown, hstart', -⟩ := hcurrent _ _ _ hg
  rw [← Option.some.inj hshown, hstart] at hstart'
  exact absurd hstart' (by decide +kernel)

end Session

end Wireboard
