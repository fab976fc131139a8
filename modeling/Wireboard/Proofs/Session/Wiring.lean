import Wireboard.Proofs.Session.Sound

/-!
# Drawing links

A link is drawn from an output by a press, any number of moves, and a release.

* `DrawnFrom a s w`: `w` is `s` while a link is being drawn from `a`.  Moves keep this, and whether
  something was snapped to on the way makes no difference;
* `DrawnFrom.release`, `DrawnFrom.cancel`: a release leaves `s` with one link toggled at most, and a
  gesture that is abandoned leaves `s`;
* `DrawnFrom.move_of_isFinite`: what is shown at a place is what a release there would do.
-/

set_option linter.unusedSectionVars false

namespace Wireboard

namespace Session

variable {α : Type} [Scalar α] {s w : Session α} {a : String} {p q : Point α}

/-- The session `w` is `s`, and a link is being drawn from `a`. -/
def DrawnFrom (a : String) (s w : Session α) : Prop :=
  ∃ preview snap, w = { s with gesture := .wiring a (some preview) snap }

/-! ## the gesture -/

theorem startWiring_of_live (ha : a ∈ s.diagram.ids) (p : Point α) :
    DrawnFrom a s (s.startWiring a p) := by
  obtain ⟨n, hn⟩ := Diagram.exists_node? (Diagram.isLive_iff.2 ha)
  unfold startWiring
  rw [previewTo_of_node hn]
  exact ⟨_, _, rfl⟩

theorem drawnFrom_press (hidle : s.gesture = .idle) (ha : a ∈ s.diagram.ids)
    (hq : q.isFinite = true) (ctrl : Bool) :
    DrawnFrom a s (s.press ⟨q, .primary, ctrl, .output a⟩) := by
  have hskip : (!s.gesture.isIdle || !q.isFinite) = false := by
    rw [hidle, hq]
    rfl
  unfold press
  rw [if_neg (by simp [hskip])]
  exact startWiring_of_live ha q

/-- The link is drawn to the input that it would go to, or else to the pointer.  What it was drawn
to before does not matter. -/
theorem DrawnFrom.move_of_isFinite (h : DrawnFrom a s w) {n : Node α}
    (hn : s.diagram.node? a = some n) (hp : p.isFinite = true) :
    w.move p = { s with
      gesture := .wiring a
        (some ⟨s.viewport.toScreen (s.settings.pinPlace n .output),
          ((s.inputNear a p).map (·.1.place)).getD p, (s.inputNear a p).isSome⟩)
        ((s.inputNear a p).map (·.1.node)) } := by
  obtain ⟨preview, snap, rfl⟩ := h
  have hpreview : Session.previewTo { s with gesture := .wiring a (some preview) snap } a p = _ :=
    previewTo_of_node (s := s) hn p
  unfold Session.move
  rw [if_neg (by simp [hp])]
  simp only [hpreview]

theorem DrawnFrom.move (h : DrawnFrom a s w) (ha : a ∈ s.diagram.ids) (p : Point α) :
    DrawnFrom a s (w.move p) := by
  by_cases hp : p.isFinite = true
  · obtain ⟨n, hn⟩ := Diagram.exists_node? (Diagram.isLive_iff.2 ha)
    rw [h.move_of_isFinite hn hp]
    exact ⟨_, _, rfl⟩
  · have hstay : w.move p = w := by
      unfold Session.move
      rw [if_pos (by simp [hp])]
    rwa [hstay]

theorem DrawnFrom.run_moves (h : DrawnFrom a s w) (ha : a ∈ s.diagram.ids)
    (ps : List (Point α)) : DrawnFrom a s (w.run (ps.map .move)) := by
  induction ps generalizing w with
  | nil => exact h
  | cons p ps ih => exact ih (h.move ha p)

/-! ## how it ends -/

theorem DrawnFrom.release (h : DrawnFrom a s w) (hidle : s.gesture = .idle) (p : Point α)
    (target : Target) :
    w.release p target = { s with diagram := s.finishWiring a p target } := by
  obtain ⟨preview, snap, rfl⟩ := h
  simp only [Session.release, hidle]
  rfl

theorem DrawnFrom.cancel (h : DrawnFrom a s w) (hidle : s.gesture = .idle) : w.cancel = s := by
  obtain ⟨preview, snap, rfl⟩ := h
  rcases s with ⟨settings, d, v, g, sel⟩
  obtain rfl : g = .idle := hidle
  rfl

theorem DrawnFrom.key_escape (h : DrawnFrom a s w) (hidle : s.gesture = .idle) (typing : Bool) :
    w.key .escape typing = (true, s) := by
  have hcancel := h.cancel hidle
  obtain ⟨preview, snap, rfl⟩ := h
  exact congrArg (Prod.mk true) hcancel

theorem wiredTo?_of_live (ha : a ∈ s.diagram.ids) (hp : p.isFinite = true) (id : String) :
    s.wiredTo? a p (.input id) = (s.inputNear a p).map (·.1.node) := by
  obtain ⟨n, hn⟩ := Diagram.exists_node? (Diagram.isLive_iff.2 ha)
  rw [wiredTo?, if_pos hp, previewTo_of_node hn, Option.bind_some]

/-- Over an input, at a finite place, the link to the nearest input goes in or out. -/
theorem finishWiring_of_near (ha : a ∈ s.diagram.ids) (hp : p.isFinite = true) {t : Anchor α}
    {dist : α} (ht : s.inputNear a p = some (t, dist)) (id : String) :
    ∃ r, s.diagram.toggle a t.node = .ok (r, s.finishWiring a p (.input id)) := by
  obtain ⟨hne, m, hm, hid, -⟩ := inputNear_eq_some ht
  have hlive : t.node ∈ s.diagram.ids := Diagram.mem_ids.2 ⟨m, hm, hid⟩
  have htoggle := Diagram.toggle_eq_ok_iff.2 ⟨hne.symm, ha, hlive, rfl, rfl⟩
  rw [finishWiring_eq, wiredTo?_of_live ha hp, ht]
  simp only [Option.map_some, Diagram.step, Diagram.perform, htoggle]
  exact ⟨_, rfl⟩

/-- Anywhere else nothing happens. -/
theorem finishWiring_of_not_near (ha : a ∈ s.diagram.ids) {target : Target}
    (h : ∀ id, target = .input id → p.isFinite = true → s.inputNear a p = none) :
    s.finishWiring a p target = s.diagram := by
  rw [finishWiring_eq]
  cases target with
  | input id =>
    by_cases hp : p.isFinite = true
    · rw [wiredTo?_of_live ha hp, h id rfl hp, Option.map_none]
    · rw [wiredTo?, if_neg hp]
  | _ => rfl

/-- What is shown as the target is a live node, and the link is drawn to its input. -/
theorem DrawnFrom.snap_of_move (h : DrawnFrom a s w) (hs : s.Sound) (ha : a ∈ s.diagram.ids)
    (hp : p.isFinite = true) :
    (w.move p).gesture.snap? = (s.inputNear a p).map (·.1.node) ∧
      ∀ t, (w.move p).gesture.snap? = some t →
        ∃ n, s.diagram.node? t = some n ∧ (w.move p).gesture.preview?.map (·.stop) =
          some (s.viewport.toScreen (s.settings.pinPlace n .input)) := by
  obtain ⟨n, hn⟩ := Diagram.exists_node? (Diagram.isLive_iff.2 ha)
  rw [h.move_of_isFinite hn hp]
  refine ⟨rfl, fun t ht => ?_⟩
  obtain ⟨⟨near, dist⟩, hnear, rfl⟩ := Option.map_eq_some_iff.1 ht
  obtain ⟨-, m, hm, hid, hplace⟩ := inputNear_eq_some hnear
  refine ⟨m, hid ▸ Diagram.node?_of_mem hs.diagram.ids_nodup hm, ?_⟩
  simp only [Gesture.preview?, hnear, Option.map_some, Option.getD_some, hplace]

variable {supply : List String}

/-- **What drawing a link comes to.**  A press on an output, any moves, and a release over an input
toggle the link to the nearest input of another node in reach of the place of the release.  Where
there is none, and when the gesture is abandoned, everything is as before the press.  The moves do
not matter, and what a last move shows as the target is what the release takes. -/
theorem wiring_outcome (hs : Reached supply s) (hidle : s.gesture = .idle)
    (ha : a ∈ s.diagram.ids) (hq : q.isFinite = true) (ctrl : Bool) (ps : List (Point α)) :
    let w := s.run (.press ⟨q, .primary, ctrl, .output a⟩ :: ps.map .move)
    (∀ p id t dist, p.isFinite = true → s.inputNear a p = some (t, dist) →
      ∃ r d, s.diagram.toggle a t.node = .ok (r, d) ∧ d.nodes = s.diagram.nodes ∧
        d.supply = s.diagram.supply ∧ w.release p (.input id) = { s with diagram := d }) ∧
    (∀ p target, (∀ id, target = .input id → p.isFinite = true → s.inputNear a p = none) →
      w.release p target = s) ∧
    w.cancel = s ∧ (∀ typing, w.key .escape typing = (true, s)) ∧
    (∀ (ps' : List (Point α)) p target, w.release p target =
      (s.run (.press ⟨q, .primary, ctrl, .output a⟩ :: ps'.map .move)).release p target) ∧
    ∀ p, p.isFinite = true →
      (w.move p).gesture.snap? = (s.inputNear a p).map (·.1.node) ∧
      ∀ t, (w.move p).gesture.snap? = some t →
        ∃ n, s.diagram.node? t = some n ∧ (w.move p).gesture.preview?.map (·.stop) =
          some (s.viewport.toScreen (s.settings.pinPlace n .input)) := by
  -- the state after the moves differs from `s` in the gesture only, and no end reads the gesture
  have hdrawn : ∀ ps : List (Point α),
      DrawnFrom a s (s.run (.press ⟨q, .primary, ctrl, .output a⟩ :: ps.map .move)) :=
    fun ps => (drawnFrom_press hidle ha hq ctrl).run_moves ha ps
  intro w
  have hw : DrawnFrom a s w := hdrawn ps
  refine ⟨?_, ?_, hw.cancel hidle, hw.key_escape hidle, ?_, ?_⟩
  · intro p id t dist hp ht
    obtain ⟨r, hr⟩ := finishWiring_of_near ha hp ht id
    obtain ⟨-, -, -, -, hd⟩ := Diagram.toggle_eq_ok_iff.1 hr
    refine ⟨r, _, hr, ?_, ?_, hw.release hidle p _⟩
    · rw [hd, Diagram.nodes_flipped]
    · rw [hd, Diagram.supply_flipped]
  · intro p target h
    rw [hw.release hidle, finishWiring_of_not_near ha h]
  · intro ps' p target
    rw [hw.release hidle, (hdrawn ps').release hidle]
  · exact fun p hp => hw.snap_of_move hs.sound ha hp

/-- A link is drawn from one node to another, past a place that is no place. -/
theorem wiring_outcome_linked :
    ∃ (s : Session Float32) (d : Diagram Float32), Reached ["a", "b"] s ∧
      (∃ r, s.diagram.toggle "a" "b" = .ok (r, d)) ∧
      (s.run (.press ⟨⟨278.0, 50.0⟩, .primary, false, .output "a"⟩ ::
        [⟨0.0 / 0.0, 0.0⟩].map .move)).release ⟨390.0, 55.0⟩ (.input "b") =
          { s with diagram := d } := by
  let es : List (Edit Float32) := [.add .linear ⟨0.0, 0.0⟩, .add .linear ⟨400.0, 0.0⟩]
  obtain ⟨s, hopen⟩ := exists_open? .initial ((Diagram.empty ["a", "b"]).run es)
  have hstate : (open? .initial ((Diagram.empty ["a", "b"]).run es)).map
      (fun s => (s.gesture, s.diagram.ids)) = some (.idle, ["a", "b"]) := by decide +kernel
  have hnear : (open? .initial ((Diagram.empty ["a", "b"]).run es)).map
      (fun s => (s.inputNear "a" ⟨390.0, 55.0⟩).map (·.1.node)) = some (some "b") := by
    decide +kernel
  rw [hopen, Option.map_some, Option.some.injEq] at hstate hnear
  obtain ⟨hidle, hids⟩ := Prod.mk.inj hstate
  obtain ⟨⟨t, dist⟩, ht, hb⟩ := Option.map_eq_some_iff.1 hnear
  have hs : Reached ["a", "b"] s := ⟨.initial, es, s, [], hopen, rfl⟩
  have ha : "a" ∈ s.diagram.ids := hids ▸ List.mem_cons_self
  have hq : (⟨278.0, 50.0⟩ : Point Float32).isFinite = true := by decide +kernel
  obtain ⟨hnearest, -⟩ := wiring_outcome hs hidle ha hq false [⟨0.0 / 0.0, 0.0⟩]
  obtain ⟨r, d, hr, -, -, hrelease⟩ :=
    hnearest ⟨390.0, 55.0⟩ "b" t dist (by decide +kernel) ht
  rw [show t.node = "b" from hb] at hr
  exact ⟨s, d, hs, ⟨r, hr⟩, hrelease⟩

end Session

end Wireboard
