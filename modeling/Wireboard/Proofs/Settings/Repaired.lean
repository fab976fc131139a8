import Wireboard.Proofs.Number.Comparison
import Wireboard.Session.Basic

/-!
# Repaired settings

Whatever settings a host hands in, in single precision they are usable once they are repaired
(`Settings.usable_repaired`), and usable settings stay as they are (`Settings.repaired_of_usable`).
The bounds of the scale are then finite and in order, so a session can always be opened
(`Session.exists_open?`).
-/

namespace Wireboard

namespace Settings

/-- Finite scale bounds that are positive and in order, and a finite zoom step above one. -/
structure Usable (s : Settings Float32) : Prop where
  min_finite : s.minScale.isFinite = true
  max_finite : s.maxScale.isFinite = true
  step_finite : s.zoomStep.isFinite = true
  pos : 0.0 < s.minScale
  le : s.minScale ≤ s.maxScale
  step : 1.0 < s.zoomStep

theorem above_eq_self {least x : Float32} (hx : x.isFinite = true) (hlt : least < x)
    (fallback : Float32) : above least fallback x = x := by
  unfold above
  refine if_pos ?_
  rw [Bool.and_eq_true]
  exact ⟨hx, decide_eq_true hlt⟩

theorem above_spec (x : Float32) {least fallback : Float32} (hf : fallback.isFinite = true)
    (hlt : least < fallback) :
    (above least fallback x).isFinite = true ∧ least < above least fallback x := by
  unfold above
  split
  · next h =>
    obtain ⟨hx, hlt⟩ := Bool.and_eq_true_iff.1 h
    exact ⟨hx, of_decide_eq_true hlt⟩
  · exact ⟨hf, hlt⟩

theorem usable_repaired (s : Settings Float32) : s.repaired.Usable := by
  obtain ⟨hlo, hloPos⟩ : (above (0.0 : Float32) 0.1 s.minScale).isFinite = true ∧
      0.0 < above (0.0 : Float32) 0.1 s.minScale :=
    above_spec _ (by decide +kernel) (by decide +kernel)
  obtain ⟨hhi, hhiPos⟩ : (above (0.0 : Float32) 3.0 s.maxScale).isFinite = true ∧
      0.0 < above (0.0 : Float32) 3.0 s.maxScale :=
    above_spec _ (by decide +kernel) (by decide +kernel)
  obtain ⟨hstep, hstepOne⟩ : (above (1.0 : Float32) 1.2 s.zoomStep).isFinite = true ∧
      1.0 < above (1.0 : Float32) 1.2 s.zoomStep :=
    above_spec _ (by decide +kernel) (by decide +kernel)
  by_cases h : above (0.0 : Float32) 3.0 s.maxScale < above 0.0 0.1 s.minScale
  · have hle := (Single.le_iff hhi hlo).2 ((Single.lt_iff hhi hlo).1 h).le
    have heq : s.repaired = { s with
        minScale := above 0.0 3.0 s.maxScale
        maxScale := above 0.0 0.1 s.minScale
        zoomStep := above 1.0 1.2 s.zoomStep } := by
      simp only [repaired, if_pos h]
    rw [heq]
    exact ⟨hhi, hlo, hstep, hhiPos, hle, hstepOne⟩
  · have hle := (Single.not_lt_iff hhi hlo).1 h
    have heq : s.repaired = { s with
        minScale := above 0.0 0.1 s.minScale
        maxScale := above 0.0 3.0 s.maxScale
        zoomStep := above 1.0 1.2 s.zoomStep } := by
      simp only [repaired, if_neg h]
    rw [heq]
    exact ⟨hlo, hhi, hstep, hloPos, hle, hstepOne⟩

theorem Usable.max_pos {s : Settings Float32} (h : s.Usable) : 0.0 < s.maxScale :=
  (Single.pos_iff h.max_finite).2 (((Single.pos_iff h.min_finite).1 h.pos).trans_le
    ((Single.le_iff h.min_finite h.max_finite).1 h.le))

/-- Usable settings need no repair. -/
theorem repaired_of_usable {s : Settings Float32} (h : s.Usable) : s.repaired = s := by
  have hle : ¬ s.maxScale < s.minScale := (Single.not_lt_iff h.max_finite h.min_finite).2 h.le
  simp only [repaired, above_eq_self h.min_finite h.pos, above_eq_self h.max_finite h.max_pos,
    above_eq_self h.step_finite h.step, if_neg hle]

/-- Bounds of the scale and zoom step apart, nothing is repaired. -/
theorem repaired_eq_with (s : Settings Float32) :
    s.repaired = { s with
      minScale := s.repaired.minScale
      maxScale := s.repaired.maxScale
      zoomStep := s.repaired.zoomStep } := rfl

end Settings

theorem Viewport.ofBounds?_of_le {lo hi : Float32} (h : lo ≤ hi) :
    ofBounds? lo hi = some ⟨lo, hi, .origin, Scalar.clamp lo hi 1.0⟩ := by
  unfold ofBounds?
  rw [if_pos h]

/-- A session is opened with the repaired settings, in the view that their bounds allow. -/
theorem Session.open?_eq (settings : Settings Float32) (d : Diagram Float32) :
    open? settings d = some ⟨settings.repaired, d,
      ⟨settings.repaired.minScale, settings.repaired.maxScale, .origin,
        Scalar.clamp settings.repaired.minScale settings.repaired.maxScale 1.0⟩, .idle, .none⟩ := by
  rw [open?, Viewport.ofBounds?_of_le settings.usable_repaired.le]
  rfl

theorem Session.exists_open? (settings : Settings Float32) (d : Diagram Float32) :
    ∃ s, open? settings d = some s :=
  ⟨_, open?_eq settings d⟩

end Wireboard
