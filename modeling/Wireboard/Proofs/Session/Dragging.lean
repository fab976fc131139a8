import Mathlib.Data.List.Infix
import Wireboard.Proofs.Session.Transitions

/-!
# Dragging nodes

A node is taken by a press and follows the pointer until the gesture ends.

* `Session.Lasts s as`: none of the actions `as` ends the gesture of `s`; `Session.idAfterRun` is what
  they turn the ids of nodes into;
* `dragging_run`: through such actions a drag goes on, with the grip and the place of the press that it
  began with, and the node counts as moved once the pointer has been at another place (`Action.leaves`);
  `Reached.taken`: every drag goes back in this way to the press that began it;
* `move_of_dragging`: a move puts the node where the pointer is, less the grip, and touches nothing
  else;
* `drag_law`: these put together.  Where the node was in between, and how it got there, does not
  matter.
-/

set_option linter.unusedSectionVars false

namespace Wireboard

variable {α : Type} [Scalar α]

/-- The pointer goes to another place of the screen than `press`. -/
def Action.leaves (press : Point α) : Action α → Bool
  | .move p => p.isFinite && p != press
  | _ => false

theorem Action.leaves_eq_false {press : Point α} {a : Action α} (h : ∀ p, a ≠ .move p) :
    a.leaves press = false := by
  cases a with
  | move p => exact absurd rfl (h p)
  | _ => rfl

namespace Session

variable {s : Session α} {node : String} {grab press : Point α} {moved : Bool}

/-! ## gestures that last -/

/-- The gesture lasts through the actions. -/
def Lasts (s : Session α) : List (Action α) → Prop
  | [] => True
  | a :: as => ¬ s.Ends a ∧ (s.step a).Lasts as

/-- What a run of actions turns the id of a node into. -/
def idAfterRun (s : Session α) : List (Action α) → String → String
  | [], x => x
  | a :: as, x => (s.step a).idAfterRun as (s.idAfter a x)

theorem lasts_append (s : Session α) (as bs : List (Action α)) :
    s.Lasts (as ++ bs) ↔ s.Lasts as ∧ (s.run as).Lasts bs := by
  induction as generalizing s with
  | nil => simp [Lasts, run]
  | cons a as ih =>
    simp only [List.cons_append, Lasts, ih, and_assoc]
    rfl

theorem idAfterRun_append (s : Session α) (as bs : List (Action α)) (x : String) :
    s.idAfterRun (as ++ bs) x = (s.run as).idAfterRun bs (s.idAfterRun as x) := by
  induction as generalizing s x with
  | nil => rfl
  | cons a as ih => exact ih (s.step a) (s.idAfter a x)

/-- That is to say, there is a gesture all the time. -/
theorem lasts_iff (hs : s.Sound) (hbusy : s.gesture ≠ .idle) {as : List (Action α)} :
    s.Lasts as ↔ ∀ bs ∈ as.inits, (s.run bs).gesture ≠ .idle := by
  induction as generalizing s with
  | nil =>
    simp only [Lasts, List.inits, List.mem_singleton, forall_eq, true_iff]
    exact hbusy
  | cons a as ih =>
    simp only [Lasts, List.inits, List.mem_cons, List.mem_map, forall_eq_or_imp,
      forall_exists_index, and_imp, forall_apply_eq_imp_iff₂]
    rcases endsOrContinues_step hs hbusy a with ⟨hends, hover⟩ | ⟨hgoes, hcontinues⟩
    · refine iff_of_false (fun h => h.1 hends) fun h => ?_
      exact h.2 [] ((List.mem_inits [] as).2 List.nil_prefix) hover
    · rw [ih (hs.step a) hcontinues.ne_idle]
      exact ⟨fun h => ⟨hbusy, h.2⟩, fun h => ⟨hgoes, h.2⟩⟩

/-- A drag goes on as the drag of the same node.  What was pressed counts as moved from the first move
to another place on. -/
theorem dragging_step (hs : s.Sound) (hg : s.gesture = .dragging node grab press moved)
    {a : Action α} (ha : ¬ s.Ends a) :
    (s.step a).gesture = .dragging (s.idAfter a node) grab press (moved || a.leaves press) := by
  have hbusy : s.gesture ≠ .idle := by simp [hg]
  have hgoes : (s.step a).gesture ≠ .idle := by
    rcases endsOrContinues_step hs hbusy a with ⟨hends, -⟩ | ⟨-, hcontinues⟩
    · exact absurd hends ha
    · exact hcontinues.ne_idle
  cases a with
  | press e =>
    rw [show s.step (.press e) = s from press_of_busy hbusy e, hg,
      Action.leaves_eq_false (fun p hp => by cases hp), Bool.or_false]
    rfl
  | move p =>
    cases hp : p.isFinite with
    | false =>
      rw [show s.step (.move p) = s from move_of_not_finite hp, hg, Action.leaves, hp,
        Bool.false_and, Bool.or_false]
      rfl
    | true =>
      have hlive : s.diagram.isLive node = true :=
        Diagram.isLive_iff.2 (hs.live_of_dragged (by rw [hg]; rfl))
      cases hq : (s.viewport.toGraph p - grab).isFinite with
      | false => exact absurd ⟨hp, node, grab, press, moved, hg, hq⟩ ha
      | true =>
        rw [show s.step (.move p) = _ from move_dragging hp hg hlive hq, Action.leaves, hp,
          Bool.true_and]
        rfl
  | _ =>
    have hstep := (gesture_step_of_not_pointer hs (fun e he => by cases he)
      fun p hp => by cases hp).resolve_left hgoes
    rw [hstep, hg, Action.leaves_eq_false (fun p hp => by cases hp), Bool.or_false]
    rfl

theorem dragging_run (hs : s.Sound) (hg : s.gesture = .dragging node grab press moved)
    {as : List (Action α)} (has : s.Lasts as) :
    (s.run as).gesture =
      .dragging (s.idAfterRun as node) grab press (moved || as.any (·.leaves press)) := by
  induction as generalizing s node moved with
  | nil => rw [List.any_nil, Bool.or_false]; exact hg
  | cons a as ih =>
    obtain ⟨ha, has⟩ := has
    rw [List.any_cons, ← Bool.or_assoc]
    exact ih (hs.step a) (dragging_step hs hg ha) has

/-! ## the press that began it -/

variable {supply : List String}

/-- A press on a node of an idle session took the node by this grip, and the gesture has lasted
since.  By now the node has this id. -/
inductive Taken (supply : List String) : Session α → String → Point α → Point α → Prop where
  | intro {s : Session α} {id : String} {n : Node α} {p : Point α} {ctrl : Bool}
      {as : List (Action α)} (reached : Reached supply s) (idle : s.gesture = .idle)
      (finite : p.isFinite = true) (live : s.diagram.node? id = some n)
      (lasts : (s.step (.press ⟨p, .primary, ctrl, .body id⟩)).Lasts as) :
      Taken supply ((s.step (.press ⟨p, .primary, ctrl, .body id⟩)).run as)
        ((s.step (.press ⟨p, .primary, ctrl, .body id⟩)).idAfterRun as id)
        (s.viewport.toGraph p - n.position) p

theorem Taken.step (h : Taken supply s node grab press) {a : Action α} (ha : ¬ s.Ends a) :
    Taken supply (s.step a) (s.idAfter a node) grab press := by
  cases h with
  | @intro s id n _ ctrl as reached idle finite live lasts =>
    have hlasts : (s.step (.press ⟨press, .primary, ctrl, .body id⟩)).Lasts (as ++ [a]) :=
      (lasts_append ..).2 ⟨lasts, ha, trivial⟩
    have h := Taken.intro reached idle finite live hlasts
    rwa [run_append, idAfterRun_append] at h

/-- Every drag goes back to such a press. -/
theorem Reached.taken (hs : Reached supply s) (hg : s.gesture = .dragging node grab press moved) :
    Taken supply s node grab press := by
  obtain ⟨settings, es, s₀, as, hopen, rfl⟩ := hs
  have hs₀ : Reached supply s₀ := ⟨settings, es, s₀, [], hopen, rfl⟩
  refine (run_induction (P := fun s => Reached supply s ∧ ∀ {node grab press moved},
    s.gesture = .dragging node grab press moved → Taken supply s node grab press)
    (fun {s} a h => ⟨h.1.step a, fun {node grab press moved} hg => ?_⟩) ⟨hs₀, ?_⟩ as).2 hg
  · obtain ⟨hs, ih⟩ := h
    by_cases hidle : s.gesture = .idle
    · obtain ⟨e, rfl, hp, hbegins⟩ :=
        ((gesture_transitions hs).1 hidle a _ (by simp)).1 hg
      cases hbegins with
      | drag _ ctrl live =>
        have hlasts : (s.step (.press ⟨press, .primary, ctrl, .body node⟩)).Lasts [] := trivial
        exact .intro hs hidle hp live hlasts
    · rcases endsOrContinues_step hs.sound hidle a with ⟨-, hover⟩ | ⟨hgoes, hcontinues⟩
      · rw [hover] at hg
        cases hg
      · rw [hg] at hcontinues
        generalize hg' : s.gesture = g at hcontinues
        cases hcontinues
        exact (ih hg').step hgoes
  · intro node grab press moved hg
    obtain ⟨v, -, rfl⟩ := Option.map_eq_some_iff.1 hopen
    cases hg

/-! ## moves -/

/-- The diagram `d'` is `d` with one node, called so, at `q`. -/
def Puts (node : String) (q : Point α) (d d' : Diagram α) : Prop :=
  ∃ before n after, d.nodes = before ++ n :: after ∧ n.id = node ∧
    d' = { d with nodes := before ++ { n with position := q } :: after }

theorem puts_modify {d : Diagram α} (hd : d.ids.Nodup) (hlive : node ∈ d.ids) (q : Point α) :
    Puts node q d (d.modify node ({ · with position := q })) := by
  obtain ⟨before, n, after, hnodes, hid, hmodify⟩ := Diagram.nodes_modify_of_nodup hd hlive
  exact ⟨before, n, after, hnodes, hid, congrArg (fun ns => { d with nodes := ns }) (hmodify _)⟩

theorem position_modify {d : Diagram α} (hlive : node ∈ d.ids) (q : Point α) :
    ((d.modify node ({ · with position := q })).node? node).map (·.position) = some q := by
  obtain ⟨n, hn⟩ := Diagram.exists_node? (Diagram.isLive_iff.2 hlive)
  have hkeeps : ∀ m : Node α, { m with position := q }.id = m.id := fun _ => rfl
  rw [Diagram.node?_modify d hkeeps, hn, Option.map_some, Option.map_some,
    if_pos (Diagram.node?_eq_some hn).2]

/-- A move during a drag: the node goes to where the pointer is, less the grip.  At a place that is no
place of the screen nothing happens, and for one that is no place in the diagram the drag is over. -/
theorem move_of_dragging (hs : s.Sound) (hg : s.gesture = .dragging node grab press moved)
    (p : Point α) :
    let q := s.viewport.toGraph p - grab
    (p.isFinite = false → s.move p = s) ∧
    (p.isFinite = true → q.isFinite = false → s.move p = { s with gesture := .idle }) ∧
    (p.isFinite = true → q.isFinite = true →
      ((s.move p).diagram.node? node).map (·.position) = some q ∧
      ∃ d moved', Puts node q s.diagram d ∧
        s.move p = { s with diagram := d, gesture := .dragging node grab press moved' }) := by
  intro q
  have hlive : node ∈ s.diagram.ids := hs.live_of_dragged (by rw [hg]; rfl)
  refine ⟨move_of_not_finite, fun hp hq => move_dragging_astray hp hg hq, fun hp hq => ?_⟩
  rw [move_dragging hp hg (Diagram.isLive_iff.2 hlive) hq]
  exact ⟨position_modify hlive q, _, _, puts_modify hs.diagram.ids_nodup hlive q, rfl⟩

/-- **Where a dragged node is.**  Every drag was begun by a press, which took the node by a grip, and
through all actions that do not end it the grip stays.  A move to any place then puts the node where
the pointer is in the view of that moment, less the grip, and changes nothing else; nothing is left of
earlier moves.  Moves to places that are none mean nothing, and where the node would have to go to no
place in the diagram, the drag ends and the diagram stays. -/
theorem drag_law (hs : Reached supply s) (hg : s.gesture = .dragging node grab press moved) :
    Taken supply s node grab press ∧ ∀ as, s.Lasts as → ∀ p,
      let w := s.run as
      let name := s.idAfterRun as node
      let q := w.viewport.toGraph p - grab
      (p.isFinite = false → w.move p = w) ∧
      (p.isFinite = true → q.isFinite = false → w.move p = { w with gesture := .idle }) ∧
      (p.isFinite = true → q.isFinite = true →
        ((w.move p).diagram.node? name).map (·.position) = some q ∧
        ∃ d moved', Puts name q w.diagram d ∧
          w.move p = { w with diagram := d, gesture := .dragging name grab press moved' }) := by
  refine ⟨hs.taken hg, fun as has p => ?_⟩
  exact move_of_dragging (hs.run as).sound (dragging_run hs.sound hg has) p

/-- A node is taken, the view is zoomed, the node renamed, and only then the pointer moves. -/
theorem drag_law_renamed :
    ∃ w : Session Float32, Reached ["a"] w ∧
      ((w.move ⟨30.0, 45.0⟩).diagram.node? "b").map (·.position) = some ⟨10.0, 20.0⟩ := by
  let es : List (Edit Float32) := [.add .linear ⟨0.0, 0.0⟩]
  let take : Action Float32 := .press ⟨⟨10.0, 10.0⟩, .primary, false, .body "a"⟩
  let as : List (Action Float32) :=
    [.wheel ⟨0.0, 0.0⟩ (-500.0), .rename "a" " b ", .update "b" "bias" "false"]
  obtain ⟨s, hopen⟩ := exists_open? .initial ((Diagram.empty ["a"]).run es)
  have hstate : (open? .initial ((Diagram.empty ["a"]).run es)).map (fun s =>
      ((s.step take).gesture, (s.step take).idAfterRun as "a",
        ((s.step take).run as).viewport.toGraph ⟨30.0, 45.0⟩ - ⟨10.0, 10.0⟩)) =
      some (.dragging "a" ⟨10.0, 10.0⟩ ⟨10.0, 10.0⟩ false, "b", ⟨10.0, 20.0⟩) := by
    decide +kernel
  rw [hopen, Option.map_some, Option.some.injEq, Prod.mk.injEq, Prod.mk.injEq] at hstate
  obtain ⟨hg, hname, hq⟩ := hstate
  have hs : Reached ["a"] (s.step take) := ⟨.initial, es, s, [take], hopen, rfl⟩
  have hlasts : (s.step take).Lasts as := ⟨not_false, not_false, not_false, trivial⟩
  obtain ⟨-, -, hmove⟩ := (drag_law hs hg).2 as hlasts ⟨30.0, 45.0⟩
  rw [hname, hq] at hmove
  exact ⟨_, hs.run as, (hmove (by decide +kernel) (by decide +kernel)).1⟩

end Session

end Wireboard
