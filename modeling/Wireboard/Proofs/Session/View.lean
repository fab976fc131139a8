import Wireboard.Proofs.Session.Sound

/-!
# The view

What the actions do to the view, and the scale that no action takes out of its bounds.

* `Session.Views s a v`: the action `a` turns the view of `s` into `v`.  Only a move that pans, a zoom
  and a reset change it (`step_views`), and no action changes the settings (`step_settings`);
* `Viewport.Bounded v`: the bounds of the scale are finite and in order, and the scale, finite too,
  lies between them.  Everything done to a viewport keeps this;
* `Session.scale_run_of_open`: whatever the settings, a session is opened, with repaired settings and
  bounds, and the scale is between the bounds after every run.
-/

set_option linter.unusedSectionVars false

namespace Wireboard

namespace Session

variable {α : Type} [Scalar α] {s s' : Session α}

/-! ## what actions do to the view -/

/-- The anchor and the change of scale of an action that zooms. -/
def zoom? (s : Session α) : Action α → Option (Point α × α)
  | .wheel p delta => some (p, -delta * s.settings.wheelGain)
  | .zoomIn p => some (p, s.viewport.scale * s.settings.zoomStep - s.viewport.scale)
  | .zoomOut p => some (p, s.viewport.scale * (1.0 / s.settings.zoomStep) - s.viewport.scale)
  | _ => none

/-- The view that an action leads to. -/
inductive Views (s : Session α) : Action α → Viewport α → Prop where
  | same (a : Action α) : Views s a s.viewport
  | pan {p anchor origin : Point α} (finite : p.isFinite = true)
      (panning : s.gesture = .panning anchor origin) :
      Views s (.move p) (s.viewport.place (origin + (p - anchor)) s.viewport.scale)
  | zoom {a : Action α} {p : Point α} {delta : α} (zoom : s.zoom? a = some (p, delta)) :
      Views s a (s.viewport.zoomAt p delta)
  | reset : Views s .resetView s.viewport.reset

/-- Settings and view are the same. -/
structure SameView (s s' : Session α) : Prop where
  settings : s'.settings = s.settings
  viewport : s'.viewport = s.viewport

theorem sameView_press (s : Session α) (e : Press α) : SameView s (s.press e) := by
  unfold press startPanning startDragging startWiring
  split
  · exact ⟨rfl, rfl⟩
  · split
    · exact ⟨rfl, rfl⟩
    · split <;> exact ⟨rfl, rfl⟩
    · split <;> exact ⟨rfl, rfl⟩
    · split <;> exact ⟨rfl, rfl⟩
    · exact ⟨rfl, rfl⟩

theorem sameView_release (s : Session α) (p : Point α) (target : Target) :
    SameView s (s.release p target) := by
  unfold release
  split
  · split <;> exact ⟨rfl, rfl⟩
  · exact ⟨rfl, rfl⟩
  · exact ⟨rfl, rfl⟩

theorem views_move (s : Session α) (p : Point α) :
    (s.move p).settings = s.settings ∧ Views s (.move p) (s.move p).viewport := by
  cases hp : p.isFinite with
  | false =>
    rw [move_of_not_finite hp]
    exact ⟨rfl, .same _⟩
  | true =>
    unfold move
    rw [if_neg (by simp [hp])]
    split
    · exact ⟨rfl, .same _⟩
    · next anchor origin hg => exact ⟨rfl, .pan hp hg⟩
    · split <;> exact ⟨rfl, .same _⟩
    · split <;> exact ⟨rfl, .same _⟩

theorem sameView_add (s : Session α) (l : Layer) (p : Point α) : SameView s (s.add l p).2 := by
  rw [add_snd]
  exact ⟨rfl, rfl⟩

theorem sameView_dropLayer (s : Session α) (l : Layer) (p : Point α) :
    SameView s (s.dropLayer l p).2 := by
  rcases dropLayer_snd s l p with h | h
  · rw [h]; exact ⟨rfl, rfl⟩
  · rw [h]; exact sameView_add s l _

theorem sameView_drop (s : Session α) (raw : String) (p : Point α) :
    SameView s (s.drop raw p).2 := by
  rcases drop_snd s raw p with h | ⟨l, h⟩
  · rw [h]; exact ⟨rfl, rfl⟩
  · rw [h]; exact sameView_dropLayer s l p

theorem sameView_rename (s : Session α) (id new : String) : SameView s (s.rename id new).2 := by
  unfold rename
  split <;> exact ⟨rfl, rfl⟩

theorem sameView_remove (s : Session α) (id : String) : SameView s (s.remove id).2 := by
  unfold remove
  split <;> exact ⟨rfl, rfl⟩

theorem sameView_deleteSelected (s : Session α) : SameView s s.deleteSelected.2 := by
  unfold deleteSelected
  split
  · obtain ⟨hsettings, hviewport⟩ := sameView_remove { s with selection := .none } _
    exact ⟨hsettings, hviewport⟩
  · exact ⟨rfl, rfl⟩

theorem sameView_key (s : Session α) (k : Key) (typing : Bool) : SameView s (s.key k typing).2 := by
  have hdelete : SameView s (if typing then (false, s) else s.deleteSelected).2 := by
    split
    · exact ⟨rfl, rfl⟩
    · exact sameView_deleteSelected s
  cases k with
  | escape =>
    unfold key
    dsimp only
    split <;> exact ⟨rfl, rfl⟩
  | delete => exact hdelete
  | backspace => exact hdelete
  | other => exact ⟨rfl, rfl⟩

theorem step_view (s : Session α) (a : Action α) :
    (s.step a).settings = s.settings ∧ Views s a (s.step a).viewport := by
  have hsame : ∀ {s' : Session α}, SameView s s' →
      s'.settings = s.settings ∧ Views s a s'.viewport := by
    intro s' h
    exact ⟨h.settings, h.viewport ▸ .same a⟩
  cases a with
  | press e => exact hsame (sameView_press s e)
  | move p => exact views_move s p
  | release p target => exact hsame (sameView_release s p target)
  | cancel => exact hsame ⟨rfl, rfl⟩
  | key k typing => exact hsame (sameView_key s k typing)
  | wheel p delta => exact ⟨rfl, .zoom rfl⟩
  | zoomIn p => exact ⟨rfl, .zoom rfl⟩
  | zoomOut p => exact ⟨rfl, .zoom rfl⟩
  | resetView => exact ⟨rfl, .reset⟩
  | drop raw p => exact hsame (sameView_drop s raw p)
  | dropLayer l p => exact hsame (sameView_dropLayer s l p)
  | add l p => exact hsame (sameView_add s l p)
  | rename node new => rw [step_rename]; exact hsame (sameView_rename s node new)
  | update node name raw =>
    rw [show s.step (.update node name raw) = _ from update_snd s node name raw]
    exact hsame ⟨rfl, rfl⟩
  | reportWidth node w =>
    rw [show s.step (.reportWidth node w) = _ from reportWidth_snd s node w]
    exact hsame ⟨rfl, rfl⟩
  | reportScreenWidth node w =>
    rw [show s.step (.reportScreenWidth node w) = _ from reportWidth_snd s node _]
    exact hsame ⟨rfl, rfl⟩
  | toggle source target =>
    rw [show s.step (.toggle source target) = _ from toggle_snd s source target]
    exact hsame ⟨rfl, rfl⟩
  | remove node => exact hsame (sameView_remove s node)
  | deleteSelected => exact hsame (sameView_deleteSelected s)
  | select node =>
    refine hsame ?_
    simp only [step, perform, select, Prod.map_snd, id_eq]
    split <;> exact ⟨rfl, rfl⟩
  | clearSelection => exact hsame ⟨rfl, rfl⟩

theorem step_settings (s : Session α) (a : Action α) : (s.step a).settings = s.settings :=
  (step_view s a).1

theorem step_views (s : Session α) (a : Action α) : Views s a (s.step a).viewport :=
  (step_view s a).2

end Session

/-! ## the scale -/

namespace Viewport

variable {v : Viewport Float32}

/-- Finite bounds in order, and a finite scale between them. -/
structure Bounded (v : Viewport Float32) : Prop where
  min_finite : v.minScale.isFinite = true
  max_finite : v.maxScale.isFinite = true
  le : v.minScale ≤ v.maxScale
  scale_finite : v.scale.isFinite = true
  min_le : v.minScale ≤ v.scale
  le_max : v.scale ≤ v.maxScale

/-- The bounds of the scale are the same. -/
structure SameBounds (v v' : Viewport Float32) : Prop where
  min_eq : v'.minScale = v.minScale
  max_eq : v'.maxScale = v.maxScale

/-- A scale that is moved into the bounds, whatever it was, leaves the viewport within them. -/
theorem Bounded.with_scale (h : v.Bounded) (offset : Point Float32) (x : Float32) :
    Bounded { v with offset, scale := v.clampScale x } := by
  unfold clampScale
  by_cases hx : (x == x) = true
  · obtain ⟨hfinite, hmin, hmax⟩ := Single.clamp_between h.min_finite h.max_finite h.le hx
    rw [if_pos hx]
    exact ⟨h.min_finite, h.max_finite, h.le, hfinite, hmin, hmax⟩
  · rw [if_neg hx]
    exact ⟨h.min_finite, h.max_finite, h.le, h.scale_finite, h.min_le, h.le_max⟩

theorem Bounded.zoomAt (h : v.Bounded) (anchor : Point Float32) (delta : Float32) :
    (v.zoomAt anchor delta).Bounded ∧ SameBounds v (v.zoomAt anchor delta) := by
  unfold Viewport.zoomAt
  split
  · exact ⟨h.with_scale _ _, rfl, rfl⟩
  · exact ⟨h, rfl, rfl⟩

/-- A scale within the bounds is not moved. -/
theorem Bounded.clampScale_scale (h : v.Bounded) : v.clampScale v.scale = v.scale := by
  have hlt : ¬ v.scale < v.minScale := (Single.not_lt_iff h.scale_finite h.min_finite).2 h.min_le
  have hgt : ¬ v.maxScale < v.scale := (Single.not_lt_iff h.max_finite h.scale_finite).2 h.le_max
  unfold clampScale Scalar.clamp
  rw [if_neg hlt, if_neg hgt, ite_self]

/-- The same of the scale and its bounds as rational numbers. -/
theorem Bounded.value_scale (h : v.Bounded) (hpos : 0.0 < v.minScale) :
    0 < Single.value v.minScale ∧ Single.value v.minScale ≤ Single.value v.scale ∧
      Single.value v.scale ≤ Single.value v.maxScale :=
  ⟨(Single.pos_iff h.min_finite).1 hpos, (Single.le_iff h.min_finite h.scale_finite).1 h.min_le,
    (Single.le_iff h.scale_finite h.max_finite).1 h.le_max⟩

/-- Between positive bounds the scale can be divided by. -/
theorem Bounded.scale_pos (h : v.Bounded) (hpos : 0.0 < v.minScale) : 0.0 < v.scale := by
  obtain ⟨hmin, hle, -⟩ := h.value_scale hpos
  exact (Single.pos_iff h.scale_finite).2 (hmin.trans_le hle)

end Viewport

namespace Session

variable {s : Session Float32}

theorem bounded_of_open {settings : Settings Float32} {d : Diagram Float32}
    (h : open? settings d = some s) :
    s.settings = settings.repaired ∧ s.viewport.Bounded ∧
      s.viewport.minScale = settings.repaired.minScale ∧
      s.viewport.maxScale = settings.repaired.maxScale := by
  rw [open?_eq, Option.some.injEq] at h
  have hone : ((1.0 : Float32) == 1.0) = true := by decide +kernel
  obtain ⟨hmin, hmax, -, -, hle, -⟩ := settings.usable_repaired
  obtain ⟨hfinite, hge, hle'⟩ := Single.clamp_between hmin hmax hle hone
  rw [← h]
  exact ⟨rfl, ⟨hmin, hmax, hle, hfinite, hge, hle'⟩, rfl, rfl⟩

theorem bounded_step (h : s.viewport.Bounded) (a : Action Float32) :
    (s.step a).viewport.Bounded ∧ s.viewport.SameBounds (s.step a).viewport := by
  have hviews := step_views s a
  generalize (s.step a).viewport = v at hviews ⊢
  cases hviews with
  | same => exact ⟨h, rfl, rfl⟩
  | pan hp hg => exact ⟨h.with_scale _ _, rfl, rfl⟩
  | zoom hz => exact h.zoomAt _ _
  | reset => exact ⟨h.with_scale _ _, rfl, rfl⟩

/-- The session has these settings, repaired, and its scale is between their bounds. -/
structure Scaled (settings : Settings Float32) (s : Session Float32) : Prop where
  settings_eq : s.settings = settings.repaired
  min_eq : s.viewport.minScale = settings.repaired.minScale
  max_eq : s.viewport.maxScale = settings.repaired.maxScale
  bounded : s.viewport.Bounded

theorem Scaled.step {settings : Settings Float32} (h : Scaled settings s) (a : Action Float32) :
    Scaled settings (s.step a) := by
  obtain ⟨hbounded, hmin, hmax⟩ := bounded_step h.bounded a
  exact ⟨(step_settings s a).trans h.settings_eq, hmin.trans h.min_eq, hmax.trans h.max_eq, hbounded⟩

theorem Scaled.scale_pos {settings : Settings Float32} (h : Scaled settings s) :
    0.0 < s.viewport.scale := by
  refine h.bounded.scale_pos ?_
  rw [h.min_eq]
  exact settings.usable_repaired.pos

/-- **The scale never leaves its bounds.**  Settings of any numbers at all are repaired to usable
ones, with nothing else changed; repairing is needed once at most, and not for usable settings.  A
session can always be opened with them, and whatever is done to it, its scale bounds are the repaired
ones and its scale is a positive finite number between them. -/
theorem scale_run_of_open (settings : Settings Float32) :
    settings.repaired.Usable ∧
    settings.repaired = { settings with
      minScale := settings.repaired.minScale
      maxScale := settings.repaired.maxScale
      zoomStep := settings.repaired.zoomStep } ∧
    settings.repaired.repaired = settings.repaired ∧
    (settings.repaired = settings ↔ settings.Usable) ∧
    ∀ d : Diagram Float32, ∃ s, open? settings d = some s ∧ ∀ as : List (Action Float32),
      Scaled settings (s.run as) ∧ 0.0 < (s.run as).viewport.scale := by
  have husable := settings.usable_repaired
  refine ⟨husable, settings.repaired_eq_with, Settings.repaired_of_usable husable, ⟨?_, ?_⟩, ?_⟩
  · intro h
    rw [← h]
    exact husable
  · exact Settings.repaired_of_usable
  · intro d
    obtain ⟨s, hopen⟩ := exists_open? settings d
    obtain ⟨hsettings, hbounded, hmin, hmax⟩ := bounded_of_open hopen
    have hs : Scaled settings s := ⟨hsettings, hmin, hmax, hbounded⟩
    refine ⟨s, hopen, fun as => ?_⟩
    have hrun : Scaled settings (s.run as) := run_induction (fun a h => h.step a) hs as
    exact ⟨hrun, hrun.scale_pos⟩

end Session

end Wireboard
