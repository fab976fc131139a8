import Wireboard.Proofs.Session.Transitions
import Wireboard.Proofs.Session.View
import Wireboard.Proofs.Viewport.Exact

/-!
# Panning without rounding

The canvas is taken at a graph point and moved, and the view is zoomed around the pointer meanwhile.
Nothing is rounded here.

* `Reached.sized`: the scale of every session that runs lead to lies between positive bounds;
* `Pointed.Pans anchor origin w`: the canvas is being moved, and was taken at `anchor`, when the offset
  was `origin`.  A zoom around the pointer leaves the graph point under it where it is
  (`Pans.under_zoom`), and a move puts there what had been taken, if the scale is still the one of
  that moment (`Pans.under_move`);
* `under_of_pan`: what lies under the pointer after any moves and zooms.
-/

set_option linter.unusedSectionVars false

namespace Wireboard

/-! ## the scale -/

theorem Settings.lt_above {least fallback : Rat} (h : least < fallback) (x : Rat) :
    least < above least fallback x := by
  unfold above
  split
  · next hx => exact of_decide_eq_true (Bool.and_eq_true_iff.1 hx).2
  · exact h

theorem Settings.min_pos_repaired (s : Settings Rat) :
    0 < s.repaired.minScale ∧ s.repaired.minScale ≤ s.repaired.maxScale := by
  have hzero : (0 : Rat) = 0.0 := by decide +kernel
  have hlo : 0 < above (0.0 : Rat) 0.1 s.minScale := hzero.trans_lt (lt_above (by decide +kernel) _)
  have hhi : 0 < above (0.0 : Rat) 3.0 s.maxScale := hzero.trans_lt (lt_above (by decide +kernel) _)
  simp only [repaired]
  split
  · next h => exact ⟨hhi, h.le⟩
  · next h => exact ⟨hlo, not_lt.1 h⟩

namespace Session

variable {s : Session Rat} {supply : List String}

theorem sized_of_open {settings : Settings Rat} {d : Diagram Rat} (h : open? settings d = some s) :
    s.viewport.Sized := by
  obtain ⟨hpos, hle⟩ := settings.min_pos_repaired
  simp only [open?, Viewport.ofBounds?, if_pos hle, Option.map_some, Option.some.injEq] at h
  rw [← h]
  refine ⟨hpos, ?_, ?_⟩ <;> simp only [Viewport.clamp_eq hle]
  · exact le_max_left _ _
  · exact max_le hle (min_le_left _ _)

theorem sized_step (h : s.viewport.Sized) (a : Action Rat) : (s.step a).viewport.Sized := by
  have hviews := step_views s a
  generalize (s.step a).viewport = v at hviews ⊢
  cases hviews with
  | same => exact h
  | pan hp hg => exact h.with_scale _ _
  | zoom hz => exact h.zoomAt _ _
  | reset => exact h.with_scale _ _

theorem Reached.sized (h : Reached supply s) : s.viewport.Sized := by
  obtain ⟨settings, es, s₀, as, hopen, rfl⟩ := h
  exact run_induction (P := fun s => s.viewport.Sized) (fun a h => sized_step h a)
    (sized_of_open hopen) as

end Session

/-! ## the pointer on the canvas -/

/-- A zoom around the pointer. -/
inductive Zoom (α : Type) where
  | wheel (delta : α)
  | zoomIn
  | zoomOut

/-- What is done while the canvas is being moved. -/
inductive PanStep (α : Type) where
  | move (p : Point α)
  | zoom (z : Zoom α)

/-- The action of zooming around `p`. -/
def Zoom.action {α : Type} (p : Point α) : Zoom α → Action α
  | wheel delta => .wheel p delta
  | zoomIn => .zoomIn p
  | zoomOut => .zoomOut p

/-- A session, and where the pointer was last. -/
structure Pointed (α : Type) where
  session : Session α
  pointer : Point α

namespace Pointed

section

variable {α : Type} [Scalar α]

/-- The graph point under the pointer. -/
def under (w : Pointed α) : Point α := w.session.viewport.toGraph w.pointer

/-- The pointer moves, or the view is zoomed around it. -/
def step (w : Pointed α) : PanStep α → Pointed α
  | .move p => ⟨w.session.step (.move p), p⟩
  | .zoom z => ⟨w.session.step (z.action w.pointer), w.pointer⟩

/-- Several such steps. -/
def run (w : Pointed α) (as : List (PanStep α)) : Pointed α := as.foldl step w

theorem run_append (w : Pointed α) (as bs : List (PanStep α)) :
    w.run (as ++ bs) = (w.run as).run bs :=
  List.foldl_append ..

theorem pointer_zooms (w : Pointed α) (zs : List (Zoom α)) :
    (w.run (zs.map .zoom)).pointer = w.pointer := by
  induction zs generalizing w with
  | nil => rfl
  | cons z zs ih => exact ih _

end

variable {w : Pointed Rat} {anchor origin : Point Rat}

/-- The canvas is being moved. -/
structure Pans (anchor origin : Point Rat) (w : Pointed Rat) : Prop where
  gesture : w.session.gesture = .panning anchor origin
  sized : w.session.viewport.Sized

theorem step_zoom (w : Pointed Rat) (z : Zoom Rat) :
    ∃ d, (w.step (.zoom z)).session =
      { w.session with viewport := w.session.viewport.zoomAt w.pointer d } := by
  cases z <;> exact ⟨_, rfl⟩

theorem Pans.step_move (h : w.Pans anchor origin) (p : Point Rat) :
    (w.step (.move p)).session = { w.session with
      viewport := { w.session.viewport with offset := origin + (p - anchor) } } := by
  have hplace : w.session.viewport.place (origin + (p - anchor)) w.session.viewport.scale =
      { w.session.viewport with offset := origin + (p - anchor) } := by
    rw [Viewport.place, h.sized.clampScale_of_mem h.sized.min_le h.sized.le_max]
  rw [← hplace]
  exact Session.move_panning rfl h.gesture

theorem Pans.step (h : w.Pans anchor origin) (a : PanStep Rat) : (w.step a).Pans anchor origin := by
  cases a with
  | move p =>
    refine ⟨?_, Session.sized_step h.sized _⟩
    rw [h.step_move p]
    exact h.gesture
  | zoom z =>
    obtain ⟨d, hd⟩ := w.step_zoom z
    refine ⟨?_, Session.sized_step h.sized _⟩
    rw [hd]
    exact h.gesture

theorem Pans.run (h : w.Pans anchor origin) (as : List (PanStep Rat)) :
    (w.run as).Pans anchor origin := by
  induction as generalizing w with
  | nil => exact h
  | cons a as ih => exact ih (h.step a)

theorem Pans.under_zoom (h : w.Pans anchor origin) (z : Zoom Rat) :
    (w.step (.zoom z)).under = w.under := by
  obtain ⟨d, hd⟩ := w.step_zoom z
  rw [under, hd]
  exact h.sized.toGraph_zoomAt w.pointer d

theorem Pans.under_zooms (h : w.Pans anchor origin) (zs : List (Zoom Rat)) :
    (w.run (zs.map .zoom)).under = w.under := by
  induction zs generalizing w with
  | nil => rfl
  | cons z zs ih => exact (ih (h.step _)).trans (h.under_zoom z)

/-- After a move the anchor is as far from the origin under the pointer as it was when the canvas was
taken, on the screen. -/
theorem Pans.under_move (h : w.Pans anchor origin) (p : Point Rat) :
    (w.step (.move p)).under = (anchor - origin).unscale w.session.viewport.scale := by
  have hway : p - (origin + (p - anchor)) = anchor - origin := by
    obtain ⟨x, y⟩ := p
    have hsub : ∀ x a o : Rat, x - (o + (x - a)) = a - o := fun x a o => by ring
    exact congrArg₂ Point.mk (hsub x _ _) (hsub y _ _)
  rw [under, h.step_move p, ← hway]
  rfl

end Pointed

namespace Session

variable {s : Session Rat} {supply : List String} {anchor origin : Point Rat}

/-- The session when the canvas has just been taken, and where. -/
def taken (s : Session Rat) (e : Press Rat) : Pointed Rat := ⟨s.step (.press e), e.place⟩

theorem pans_taken (hs : Reached supply s) (hidle : s.gesture = .idle) {e : Press Rat}
    (he : s.Begins e (.panning anchor origin)) :
    (s.taken e).Pans anchor origin ∧ anchor = e.place ∧ origin = s.viewport.offset ∧
      (s.taken e).session.viewport = s.viewport := by
  have hpress := gesture_press hidle (e := e) rfl
  have hview : (s.step (.press e)).viewport = s.viewport := (sameView_press s e).viewport
  rcases hpress with hbegins | ⟨-, hnone⟩
  · have hg : (s.press e).gesture = .panning anchor origin := hbegins.unique he
    refine ⟨⟨hg, (hs.step _).sized⟩, ?_, ?_, hview⟩ <;> cases he <;> rfl
  · exact absurd he (hnone _)

/-- **What lies under the pointer while the canvas is being moved.**  Until the pointer moves it is
the point that was taken, whatever zooms there are.  After a move, and whatever zooms there are after
it, it is that point multiplied by the ratio of the scale when it was taken to the scale at the move;
so it is the same point exactly if these two scales are the same, or if it is the origin. -/
theorem under_of_pan (hs : Reached supply s) (hidle : s.gesture = .idle) {e : Press Rat}
    (he : s.Begins e (.panning anchor origin)) (as : List (PanStep Rat)) (p : Point Rat)
    (zs : List (Zoom Rat)) :
    let point := s.viewport.toGraph e.place
    let before := (s.taken e).run as
    let after := (s.taken e).run (as ++ .move p :: zs.map .zoom)
    ((s.taken e).run (zs.map .zoom)).under = point ∧ after.pointer = p ∧
    after.under = point.scale (s.viewport.scale / before.session.viewport.scale) ∧
    (after.under = point ↔
      before.session.viewport.scale = s.viewport.scale ∨ point = .origin) := by
  intro point before after
  obtain ⟨htaken, rfl, rfl, hview⟩ := pans_taken hs hidle he
  have hscale := hs.sized.scale_pos.ne'
  have hbefore : before.Pans e.place s.viewport.offset := htaken.run as
  have hafter : after = (before.step (.move p)).run (zs.map .zoom) := by
    rw [show after = (s.taken e).run (as ++ _) from rfl, Pointed.run_append]
    rfl
  have hunder : after.under = point.scale (s.viewport.scale / before.session.viewport.scale) := by
    calc after.under
        = (before.step (.move p)).under := by rw [hafter, (hbefore.step _).under_zooms]
      _ = (e.place - s.viewport.offset).unscale before.session.viewport.scale := hbefore.under_move p
      _ = point.scale (s.viewport.scale / before.session.viewport.scale) :=
        (Point.unscale_scale_div hscale _ _).symm
  refine ⟨?_, ?_, hunder, ?_⟩
  · rw [htaken.under_zooms, Pointed.under, hview]
    rfl
  · rw [hafter, Pointed.pointer_zooms]
    rfl
  · rw [hunder, Point.scale_eq_self_iff, div_eq_one_iff_eq hbefore.sized.scale_pos.ne', eq_comm]

/-- The view is zoomed and zoomed back while the canvas is being moved: the point that was taken is
under the pointer again. -/
theorem under_of_pan_back :
    ∃ s : Session Rat, Reached [] s ∧
      ((s.taken ⟨⟨100, 0⟩, .middle, false, .canvas⟩).run
        [.zoom (.wheel (-500)), .move ⟨250, 40⟩, .zoom (.wheel 500), .move ⟨70, 8⟩,
          .zoom .zoomIn]).under = s.viewport.toGraph ⟨100, 0⟩ := by
  let as : List (PanStep Rat) := [.zoom (.wheel (-500)), .move ⟨250, 40⟩, .zoom (.wheel 500)]
  have hstate : (open? .initial ((Diagram.empty []).run [])).map (fun s => (s.gesture,
      s.viewport.scale, ((s.taken ⟨⟨100, 0⟩, .middle, false, .canvas⟩).run as).session.viewport.scale)) =
        some (.idle, 1, 1) := by decide +kernel
  obtain ⟨s, hopen, hstate⟩ := Option.map_eq_some_iff.1 hstate
  simp only [Prod.mk.injEq] at hstate
  obtain ⟨hidle, hscale, hback⟩ := hstate
  have hs : Reached [] s := ⟨.initial, [], s, [], hopen, rfl⟩
  obtain ⟨-, -, -, hiff⟩ :=
    under_of_pan hs hidle (.pan ⟨100, 0⟩ false) as ⟨70, 8⟩ [.zoomIn]
  exact ⟨s, hs, hiff.2 (.inl (hback.trans hscale.symm))⟩

/-- The canvas is taken at a point and the view zoomed around the pointer.  With the next move, though
it be to the place where the pointer is, the pointer is over another point. -/
theorem not_under_eq_zoomed :
    ∃ (s : Session Rat) (e : Press Rat), Reached [] s ∧ s.gesture = .idle ∧
      s.Begins e (.panning e.place s.viewport.offset) ∧
      ((s.taken e).run [.zoom (.wheel (-500)), .move e.place]).under ≠
        s.viewport.toGraph e.place := by
  let e : Press Rat := ⟨⟨100, 0⟩, .middle, false, .canvas⟩
  have hstate : (open? .initial ((Diagram.empty []).run [])).map (fun s => (s.gesture,
      s.viewport.toGraph e.place,
      ((s.taken e).run [.zoom (.wheel (-500)), .move e.place]).under)) =
        some (.idle, ⟨100, 0⟩, ⟨200 / 3, 0⟩) := by decide +kernel
  obtain ⟨s, hopen, hstate⟩ := Option.map_eq_some_iff.1 hstate
  simp only [Prod.mk.injEq] at hstate
  obtain ⟨hidle, htaken, hunder⟩ := hstate
  refine ⟨s, e, ⟨.initial, [], s, [], hopen, rfl⟩, hidle, .pan _ _, ?_⟩
  rw [htaken, hunder]
  decide +kernel

end Session

end Wireboard
