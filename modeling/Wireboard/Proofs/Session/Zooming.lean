import Wireboard.Proofs.Number.Scaling
import Wireboard.Proofs.Session.View

/-!
# The zoom controls

A control multiplies the scale by a factor.  What it does is to take the scale from the product, to add
the difference to the scale again and to move the sum into the bounds, and each step is rounded.

* `Scales.le_zoomBy`, `Scales.zoomBy_le`: the scale does not go the other way than the product;
* `Scales.lt_zoomBy_iff`, `Scales.zoomBy_lt_iff`: unless it is at the bound, it goes some way if the
  product does;
* `Session.zoom_progress`: so both controls change every scale that has a filled up mantissa, until it
  is at its bound.
-/

namespace Wireboard

namespace Viewport

variable {v : Viewport Float32} {p : Point Float32} {f : Float32}

/-! ## one factor -/

theorem scale_zoomBy (v : Viewport Float32) (hp : p.isFinite = true) (f : Float32) :
    (v.zoomBy p f).scale = if (v.scale * f - v.scale).isFinite then
      v.clampScale (v.scale + (v.scale * f - v.scale)) else v.scale := by
  have hfinite : Scalar.isFinite (v.scale * f - v.scale) = (v.scale * f - v.scale).isFinite := rfl
  rw [zoomBy, zoomAt, hp, Bool.true_and, hfinite]
  split <;> rfl

theorem clampScale_of_le_right {x y : Float32} (h : x ≤ y) (v : Viewport Float32) :
    v.clampScale y = Scalar.clamp v.minScale v.maxScale y :=
  if_pos (Single.beq_self_of_le h).2

theorem clampScale_of_le_left {x y : Float32} (h : x ≤ y) (v : Viewport Float32) :
    v.clampScale x = Scalar.clamp v.minScale v.maxScale x :=
  if_pos (Single.beq_self_of_le h).1

/-- A scale between its bounds, and a finite product of it with the factor, neither of them negative. -/
structure Scales (v : Viewport Float32) (f : Float32) : Prop where
  bounded : v.Bounded
  nonneg : 0 ≤ Single.value v.scale
  finite : (v.scale * f).isFinite = true
  product : 0 ≤ Single.value (v.scale * f)

theorem Scales.sub_finite (h : v.Scales f) : (v.scale * f - v.scale).isFinite = true :=
  (Single.rounded_sub_of_nonneg h.finite h.bounded.scale_finite h.product h.nonneg).finite

theorem Scales.scale_eq (h : v.Scales f) (hp : p.isFinite = true) :
    (v.zoomBy p f).scale = v.clampScale (v.scale + (v.scale * f - v.scale)) := by
  rw [scale_zoomBy v hp, if_pos h.sub_finite]

theorem Scales.le_zoomBy (h : v.Scales f) (hp : p.isFinite = true)
    (hle : Single.value v.scale ≤ Single.value (v.scale * f)) : v.scale ≤ (v.zoomBy p f).scale := by
  have hsum := Single.le_add_sub h.bounded.scale_finite h.finite h.nonneg hle
  rw [h.scale_eq hp, clampScale_of_le_right hsum]
  exact Single.le_clamp hsum h.bounded.le_max

theorem Scales.zoomBy_le (h : v.Scales f) (hp : p.isFinite = true)
    (hle : Single.value (v.scale * f) ≤ Single.value v.scale) : (v.zoomBy p f).scale ≤ v.scale := by
  have hsum := Single.add_sub_le h.bounded.scale_finite h.finite h.product hle
  rw [h.scale_eq hp, clampScale_of_le_left hsum]
  exact Single.clamp_le hsum h.bounded.min_le

/-- Below its greatest value, the scale becomes greater just when the product is. -/
theorem Scales.lt_zoomBy_iff (h : v.Scales f) (hp : p.isFinite = true) (hmax : v.scale < v.maxScale) :
    v.scale < (v.zoomBy p f).scale ↔ v.scale < v.scale * f := by
  rw [Single.lt_iff h.bounded.scale_finite h.finite]
  refine ⟨fun hlt => ?_, fun hlt => ?_⟩
  · by_contra hle
    exact Single.not_lt_of_le (h.zoomBy_le hp (not_lt.1 hle)) hlt
  · have hsum := Single.lt_add_sub h.bounded.scale_finite h.finite h.nonneg hlt
    rw [h.scale_eq hp, clampScale_of_le_right (Single.le_of_lt hsum)]
    exact Single.lt_clamp hsum hmax

/-- Above its least value, the scale becomes smaller just when the product is. -/
theorem Scales.zoomBy_lt_iff (h : v.Scales f) (hp : p.isFinite = true) (hmin : v.minScale < v.scale) :
    (v.zoomBy p f).scale < v.scale ↔ v.scale * f < v.scale := by
  rw [Single.lt_iff h.finite h.bounded.scale_finite]
  refine ⟨fun hlt => ?_, fun hlt => ?_⟩
  · by_contra hle
    exact Single.not_lt_of_le (h.le_zoomBy hp (not_lt.1 hle)) hlt
  · have hsum := Single.add_sub_lt h.bounded.scale_finite h.finite h.product hlt
    rw [h.scale_eq hp, clampScale_of_le_left (Single.le_of_lt hsum)]
    exact Single.clamp_lt hsum hmin

/-- A product that is not finite leaves the scale as it is. -/
theorem scale_zoomBy_of_not_finite (hp : p.isFinite = true) (h : (v.scale * f).isFinite ≠ true) :
    (v.zoomBy p f).scale = v.scale := by
  rw [scale_zoomBy v hp, if_neg fun hsub => h (Single.isFinite_of_sub hsub).1]

end Viewport

namespace Session

variable {settings : Settings Float32} {d : Diagram Float32} {s s₀ : Session Float32}
  {p : Point Float32}

/-! ## the controls -/

theorem scaled_run_of_open (hopen : open? settings d = some s₀) (as : List (Action Float32)) :
    Scaled settings (s₀.run as) := by
  obtain ⟨hsettings, hbounded, hmin, hmax⟩ := bounded_of_open hopen
  exact run_induction (fun a h => h.step a) ⟨hsettings, hmin, hmax, hbounded⟩ as

theorem Scaled.value_pos (h : Scaled settings s) : 0 < Single.value s.viewport.scale :=
  (Single.pos_iff h.bounded.scale_finite).1 h.scale_pos

/-- The factor of one step nearer, which is above one. -/
theorem Scaled.step_above (h : Scaled settings s) :
    s.settings.zoomStep.isFinite = true ∧ 1.0 < s.settings.zoomStep := by
  rw [h.settings_eq]
  exact ⟨settings.usable_repaired.step_finite, settings.usable_repaired.step⟩

theorem Scaled.scales_in (h : Scaled settings s)
    (hfinite : (s.viewport.scale * s.settings.zoomStep).isFinite = true) :
    s.viewport.Scales s.settings.zoomStep ∧
      Single.value s.viewport.scale ≤ Single.value (s.viewport.scale * s.settings.zoomStep) := by
  obtain ⟨hstep, habove⟩ := h.step_above
  have hone : 1 ≤ Single.value s.settings.zoomStep :=
    le_trans (by norm_num) (Single.succ_one_le hstep habove)
  have hle := Single.value_le_mul h.bounded.scale_finite hstep h.value_pos.le hone hfinite
  exact ⟨⟨h.bounded, h.value_pos.le, hfinite, h.value_pos.le.trans hle⟩, hle⟩

theorem Scaled.scales_out (h : Scaled settings s) :
    s.viewport.Scales (1.0 / s.settings.zoomStep) ∧
      Single.value (s.viewport.scale * (1.0 / s.settings.zoomStep)) ≤
        Single.value s.viewport.scale := by
  obtain ⟨hstep, habove⟩ := h.step_above
  obtain ⟨hfactor0, hfactor1⟩ := Single.one_div_le hstep habove
  have hone : Single.value (1.0 / s.settings.zoomStep) ≤ 1 := hfactor1.trans (by norm_num)
  have hfactor := (Single.rounded_one_div hstep habove).finite
  have hrounded :=
    Single.rounded_mul_of_le_one h.bounded.scale_finite hfactor h.value_pos.le hfactor0 hone
  refine ⟨⟨h.bounded, h.value_pos.le, hrounded.finite, ?_⟩, ?_⟩
  · exact hrounded.nonneg (mul_nonneg h.value_pos.le hfactor0)
  · exact Single.value_mul_le h.bounded.scale_finite hfactor h.value_pos.le hfactor0 hone

theorem Scaled.le_zoomIn (h : Scaled settings s) (hp : p.isFinite = true) :
    s.viewport.scale ≤ (s.zoomIn p).viewport.scale := by
  by_cases hfinite : (s.viewport.scale * s.settings.zoomStep).isFinite = true
  · obtain ⟨hscales, hle⟩ := h.scales_in hfinite
    exact hscales.le_zoomBy hp hle
  · have hsame : (s.zoomIn p).viewport.scale = s.viewport.scale :=
      Viewport.scale_zoomBy_of_not_finite hp hfinite
    rw [hsame]
    exact (Single.le_iff h.bounded.scale_finite h.bounded.scale_finite).2 le_rfl

/-- **The zoom controls make progress.**  Whatever the settings, and in every session that is opened with
them, a step nearer never makes the scale smaller and a step away never makes it greater.  As long as the
scale is not at its bound, each makes it different just when the product with its factor, in single
precision, is different, unless that product is infinite; and it is different whenever the scale is not so
small that its mantissa is not filled up. -/
theorem zoom_progress (hopen : open? settings d = some s₀) (as : List (Action Float32))
    (hp : p.isFinite = true) :
    let c := settings.repaired
    let s := s₀.run as
    let x := s.viewport.scale
    (x ≤ (s.zoomIn p).viewport.scale ∧
      (x < c.maxScale → (x * c.zoomStep).isFinite = true →
        (x < (s.zoomIn p).viewport.scale ↔ x < x * c.zoomStep))) ∧
    ((s.zoomOut p).viewport.scale ≤ x ∧
      (c.minScale < x →
        ((s.zoomOut p).viewport.scale < x ↔ x * (1.0 / c.zoomStep) < x))) ∧
    (1 / 2 ^ 126 ≤ Single.value x → x < x * c.zoomStep ∧ x * (1.0 / c.zoomStep) < x) := by
  intro c s x
  have h : Scaled settings s := scaled_run_of_open hopen as
  have hc : s.settings = c := h.settings_eq
  obtain ⟨hout, hle⟩ := h.scales_out
  obtain ⟨hstep, habove⟩ := h.step_above
  rw [← hc]
  refine ⟨⟨h.le_zoomIn hp, fun hmax hfinite => ?_⟩, ⟨hout.zoomBy_le hp hle, fun hmin => ?_⟩,
    fun hnormal => ⟨?_, ?_⟩⟩
  · rw [hc, ← h.max_eq] at hmax
    exact (h.scales_in hfinite).1.lt_zoomBy_iff hp hmax
  · rw [hc, ← h.min_eq] at hmin
    exact hout.zoomBy_lt_iff hp hmin
  · exact Single.lt_mul h.bounded.scale_finite hnormal hstep habove
  · exact Single.mul_one_div_lt h.bounded.scale_finite hnormal hstep habove

/-- The canvas that nobody has changed, after two steps nearer. -/
theorem zoom_progress_initial :
    ∃ s : Session Float32, Reached [] s ∧
      s.viewport.scale < (s.zoomIn ⟨100.0, 50.0⟩).viewport.scale ∧
      (s.zoomOut ⟨100.0, 50.0⟩).viewport.scale < s.viewport.scale := by
  let as : List (Action Float32) := [.zoomIn ⟨0.0, 0.0⟩, .zoomIn ⟨30.0, 40.0⟩]
  have hopen := open?_eq .initial (.empty [])
  have hp : (⟨100.0, 50.0⟩ : Point Float32).isFinite = true := by decide +kernel
  obtain ⟨⟨-, hin⟩, ⟨-, hout⟩, hnormal⟩ := zoom_progress hopen as hp
  obtain ⟨hgreater, hless⟩ := hnormal (by decide +kernel)
  refine ⟨_, ⟨.initial, [], _, as, hopen, rfl⟩, ?_, ?_⟩
  · exact (hin (by decide +kernel) (by decide +kernel)).2 hgreater
  · exact (hout (by decide +kernel)).2 hless

/-- With the smallest bounds there are, the product with the factor of a step away is rounded to the scale
again; with a factor that is great enough, the product of a step nearer is infinite. -/
theorem not_zoom_progress :
    let tiny : Settings Float32 := { Settings.initial with minScale := 1e-45, maxScale := 3e-45 }
    let huge : Settings Float32 :=
      { Settings.initial with minScale := 2.0, maxScale := 100.0, zoomStep := 2e38 }
    let p : Point Float32 := ⟨0.0, 0.0⟩
    (∃ s, open? tiny (.empty []) = some s ∧ s.viewport.offset = .origin ∧
      tiny.repaired.minScale < s.viewport.scale ∧
      ¬ (s.zoomOut p).viewport.scale < s.viewport.scale) ∧
    ∃ s, open? huge (.empty []) = some s ∧ s.viewport.offset = .origin ∧
      s.viewport.scale < huge.repaired.maxScale ∧
      ¬ s.viewport.scale < (s.zoomIn p).viewport.scale := by
  intro tiny huge p
  refine ⟨⟨_, open?_eq _ _, rfl, ?_, ?_⟩, ⟨_, open?_eq _ _, rfl, ?_, ?_⟩⟩ <;> decide +kernel

end Session

end Wireboard
