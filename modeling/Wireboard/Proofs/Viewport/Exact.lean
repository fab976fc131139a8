import Mathlib.Algebra.Order.Field.Basic
import Mathlib.Algebra.Order.Ring.Rat
import Mathlib.Tactic.Tauto
import Wireboard.Viewport

/-!
# Viewports without rounding

Over the rationals a viewport maps the plane one to one, and everything done to it can be said in
terms of the graph points that lie under screen points.

* `Viewport.Sized v`: the scale lies between its bounds, and these are positive.  Zooming, panning and
  resetting keep this;
* `Viewport.eq_of_toGraph_eq`: a viewport is known from its bounds, its scale and the graph point under
  one screen point.  The laws of zooming follow from this and from `toGraph_zoomAt`: the graph point
  under the anchor stays;
* `Viewport.zoom_laws`: conversions undo each other, what a zoom does to the scale, and when zooms undo
  each other.
-/

namespace Wireboard

/-! ## points -/

namespace Point

variable {k : Rat}

theorem scale_unscale (hk : k ≠ 0) (p : Point Rat) : (p.unscale k).scale k = p := by
  obtain ⟨x, y⟩ := p
  simp only [scale, unscale, Point.mk.injEq]
  exact ⟨div_mul_cancel₀ x hk, div_mul_cancel₀ y hk⟩

theorem unscale_scale (hk : k ≠ 0) (p : Point Rat) : (p.scale k).unscale k = p := by
  obtain ⟨x, y⟩ := p
  simp only [scale, unscale, Point.mk.injEq]
  exact ⟨mul_div_cancel_right₀ x hk, mul_div_cancel_right₀ y hk⟩

theorem sub_add_self (p o : Point Rat) : p - o + o = p := by
  obtain ⟨x, y⟩ := p
  exact congrArg₂ Point.mk (sub_add_cancel x o.x) (sub_add_cancel y o.y)

theorem add_sub_self (p o : Point Rat) : p + o - o = p := by
  obtain ⟨x, y⟩ := p
  exact congrArg₂ Point.mk (add_sub_cancel_right x o.x) (add_sub_cancel_right y o.y)

theorem sub_sub_self (p q : Point Rat) : p - (p - q) = q := by
  obtain ⟨x, y⟩ := q
  exact congrArg₂ Point.mk (sub_sub_cancel p.x x) (sub_sub_cancel p.y y)

theorem scale_div (p : Point Rat) (k k' : Rat) : p.scale (k' / k) = (p.unscale k).scale k' := by
  have hmul : ∀ x : Rat, x * (k' / k) = x / k * k' := fun x => by
    rw [div_mul_eq_mul_div, mul_div_assoc]
  exact congrArg₂ Point.mk (hmul p.x) (hmul p.y)

theorem unscale_scale_div (hk : k ≠ 0) (p : Point Rat) (k' : Rat) :
    (p.unscale k).scale (k / k') = p.unscale k' :=
  congrArg₂ Point.mk (div_mul_div_cancel₀ hk) (div_mul_div_cancel₀ hk)

theorem origin_eq : (origin : Point Rat) = ⟨0, 0⟩ := by decide +kernel

/-- Only the origin stays where it is when the plane is scaled. -/
theorem scale_eq_self_iff (p : Point Rat) : p.scale k = p ↔ k = 1 ∨ p = .origin := by
  obtain ⟨x, y⟩ := p
  rw [origin_eq, scale, Point.mk.injEq, Point.mk.injEq, mul_right_eq_self₀, mul_right_eq_self₀]
  tauto

end Point

namespace Viewport

variable {v v' : Viewport Rat}

/-- A scale between positive bounds. -/
structure Sized (v : Viewport Rat) : Prop where
  min_pos : 0 < v.minScale
  min_le : v.minScale ≤ v.scale
  le_max : v.scale ≤ v.maxScale

theorem Sized.scale_pos (h : v.Sized) : 0 < v.scale := h.min_pos.trans_le h.min_le

theorem Sized.min_le_max (h : v.Sized) : v.minScale ≤ v.maxScale := h.min_le.trans h.le_max

/-! ## conversions -/

theorem toScreen_toGraph (h : v.scale ≠ 0) (p : Point Rat) : v.toScreen (v.toGraph p) = p := by
  rw [toScreen, toGraph, Point.scale_unscale h, Point.sub_add_self]

theorem toGraph_toScreen (h : v.scale ≠ 0) (p : Point Rat) : v.toGraph (v.toScreen p) = p := by
  rw [toScreen, toGraph, Point.add_sub_self, Point.unscale_scale h]

/-- The offset is as far from a screen point as the graph point under it, scaled, is from the
origin. -/
theorem offset_eq (h : v.scale ≠ 0) (p : Point Rat) :
    v.offset = p - (v.toGraph p).scale v.scale := by
  rw [toGraph, Point.scale_unscale h, Point.sub_sub_self]

/-- A viewport is known from its bounds, its scale and what lies under one screen point. -/
theorem eq_of_toGraph_eq (h : v.scale ≠ 0) (hmin : v'.minScale = v.minScale)
    (hmax : v'.maxScale = v.maxScale) (hscale : v'.scale = v.scale) {p : Point Rat}
    (hp : v'.toGraph p = v.toGraph p) : v' = v := by
  have hoffset : v'.offset = v.offset := by
    rw [offset_eq (hscale ▸ h) p, offset_eq h p, hp, hscale]
  obtain ⟨lo, hi, o, s⟩ := v'
  cases v
  simp_all

/-! ## zooming -/

theorem clampScale_eq (v : Viewport Rat) (s : Rat) :
    v.clampScale s = Scalar.clamp v.minScale v.maxScale s := by
  rw [clampScale, if_pos (beq_self_eq_true s)]

theorem clamp_eq {lo hi : Rat} (h : lo ≤ hi) (x : Rat) :
    Scalar.clamp lo hi x = max lo (min hi x) := by
  unfold Scalar.clamp
  split
  · next hx => rw [max_eq_left ((min_le_right hi x).trans hx.le)]
  · next hx =>
    rw [not_lt] at hx
    split
    · next hx' => rw [min_eq_left hx'.le, max_eq_right h]
    · next hx' => rw [min_eq_right (not_lt.1 hx'), max_eq_right hx]

theorem Sized.clampScale_eq (h : v.Sized) (s : Rat) :
    v.clampScale s = max v.minScale (min v.maxScale s) := by
  rw [Viewport.clampScale_eq, clamp_eq h.min_le_max]

/-- A scale within the bounds is not moved. -/
theorem Sized.clampScale_of_mem (h : v.Sized) {s : Rat} (hmin : v.minScale ≤ s)
    (hmax : s ≤ v.maxScale) : v.clampScale s = s := by
  rw [h.clampScale_eq, min_eq_right hmax, max_eq_right hmin]

theorem Sized.with_scale (h : v.Sized) (offset : Point Rat) (s : Rat) :
    Sized { v with offset, scale := v.clampScale s } := by
  refine ⟨h.min_pos, ?_, ?_⟩
  · rw [h.clampScale_eq]
    exact le_max_left _ _
  · rw [h.clampScale_eq]
    exact max_le h.min_le_max (min_le_left _ _)

/-- All numbers are finite, so no zoom is ignored. -/
theorem zoomAt_eq (v : Viewport Rat) (p : Point Rat) (d : Rat) :
    v.zoomAt p d = { v with
      offset := p - (p - v.offset).scale (v.clampScale (v.scale + d) / v.scale)
      scale := v.clampScale (v.scale + d) } :=
  if_pos rfl

theorem Sized.zoomAt (h : v.Sized) (p : Point Rat) (d : Rat) : (v.zoomAt p d).Sized := by
  rw [zoomAt_eq]
  exact h.with_scale _ _

theorem minScale_zoomAt (v : Viewport Rat) (p : Point Rat) (d : Rat) :
    (v.zoomAt p d).minScale = v.minScale := by
  rw [zoomAt_eq]

theorem maxScale_zoomAt (v : Viewport Rat) (p : Point Rat) (d : Rat) :
    (v.zoomAt p d).maxScale = v.maxScale := by
  rw [zoomAt_eq]

theorem scale_zoomAt (v : Viewport Rat) (p : Point Rat) (d : Rat) :
    (v.zoomAt p d).scale = v.clampScale (v.scale + d) := by
  rw [zoomAt_eq]

/-- A zoom leaves the graph point under its anchor where it is, whether or not the scale is moved into
the bounds. -/
theorem Sized.toGraph_zoomAt (h : v.Sized) (p : Point Rat) (d : Rat) :
    (v.zoomAt p d).toGraph p = v.toGraph p := by
  have hscale : v.clampScale (v.scale + d) ≠ 0 := by
    rw [← scale_zoomAt v p]
    exact (h.zoomAt p d).scale_pos.ne'
  rw [zoomAt_eq, toGraph]
  dsimp only
  rw [Point.sub_sub_self, Point.scale_div, Point.unscale_scale hscale]
  rfl

theorem Sized.zoomAt_eq_self (h : v.Sized) {p : Point Rat} {d : Rat}
    (hd : v.clampScale (v.scale + d) = v.scale) : v.zoomAt p d = v :=
  eq_of_toGraph_eq h.scale_pos.ne' (minScale_zoomAt v p d) (maxScale_zoomAt v p d)
    ((scale_zoomAt v p d).trans hd) (h.toGraph_zoomAt p d)

/-- Zooming to a scale within the bounds is undone by zooming back. -/
theorem Sized.zoomAt_neg (h : v.Sized) (p : Point Rat) {d : Rat} (hmin : v.minScale ≤ v.scale + d)
    (hmax : v.scale + d ≤ v.maxScale) : (v.zoomAt p d).zoomAt p (-d) = v := by
  have hscale : (v.zoomAt p d).scale = v.scale + d := by
    rw [scale_zoomAt, h.clampScale_of_mem hmin hmax]
  have hback : ((v.zoomAt p d).zoomAt p (-d)).scale = v.scale := by
    have hmem := (h.zoomAt p d).clampScale_of_mem (s := v.scale)
    rw [minScale_zoomAt, maxScale_zoomAt] at hmem
    rw [scale_zoomAt, hscale, add_neg_cancel_right, hmem h.min_le h.le_max]
  refine eq_of_toGraph_eq (p := p) h.scale_pos.ne' ?_ ?_ hback ?_
  · rw [minScale_zoomAt, minScale_zoomAt]
  · rw [maxScale_zoomAt, maxScale_zoomAt]
  · rw [(h.zoomAt p d).toGraph_zoomAt, h.toGraph_zoomAt]

theorem zoomBy_eq (v : Viewport Rat) (p : Point Rat) {f d : Rat} (hd : v.scale + d = v.scale * f) :
    v.zoomBy p f = v.zoomAt p d := by
  rw [zoomBy, ← hd, add_sub_cancel_left]

/-- **The laws of zooming.**  Between positive bounds of the scale, the conversions undo each other; a
zoom adds to the scale and moves the sum into the bounds, and the graph point under its anchor stays;
it changes nothing if the scale stays the same, and is undone by the opposite zoom unless the scale
had to be moved into the bounds; and zooming by a factor is the zoom to the scale times the
factor. -/
theorem zoom_laws (h : v.Sized) (p : Point Rat) (d : Rat) :
    v.toScreen (v.toGraph p) = p ∧ v.toGraph (v.toScreen p) = p ∧
    (v.zoomAt p d).Sized ∧ (v.zoomAt p d).minScale = v.minScale ∧
    (v.zoomAt p d).maxScale = v.maxScale ∧
    (v.zoomAt p d).scale = max v.minScale (min v.maxScale (v.scale + d)) ∧
    (v.zoomAt p d).toGraph p = v.toGraph p ∧
    ((v.zoomAt p d).scale = v.scale → v.zoomAt p d = v) ∧
    (v.minScale ≤ v.scale + d → v.scale + d ≤ v.maxScale → (v.zoomAt p d).zoomAt p (-d) = v) ∧
    ∀ f, (∀ e, v.scale + e = v.scale * f → v.zoomBy p f = v.zoomAt p e) ∧
      (v.zoomBy p f).scale = max v.minScale (min v.maxScale (v.scale * f)) := by
  have hscale := h.scale_pos.ne'
  have hsum : ∀ e, (v.zoomAt p e).scale = max v.minScale (min v.maxScale (v.scale + e)) := by
    intro e
    rw [scale_zoomAt, h.clampScale_eq]
  refine ⟨toScreen_toGraph hscale p, toGraph_toScreen hscale p, h.zoomAt p d, minScale_zoomAt v p d,
    maxScale_zoomAt v p d, hsum d, h.toGraph_zoomAt p d, ?_, h.zoomAt_neg p, fun f => ⟨?_, ?_⟩⟩
  · intro heq
    exact h.zoomAt_eq_self ((scale_zoomAt v p d).symm.trans heq)
  · exact fun e he => zoomBy_eq v p he
  · rw [zoomBy, hsum, add_sub_cancel]

/-- A view at three quarters of its size is zoomed to the upper bound of the scale and beyond. -/
theorem zoom_laws_clamped :
    ∃ v : Viewport Rat, v.Sized ∧ v.scale = 3 / 4 ∧
      (v.zoomAt ⟨500, 300⟩ 7).scale = 3 ∧
      (v.zoomAt ⟨500, 300⟩ 7).toGraph ⟨500, 300⟩ = v.toGraph ⟨500, 300⟩ := by
  have h : Sized (⟨1 / 10, 3, ⟨-7, 1 / 3⟩, 3 / 4⟩ : Viewport Rat) :=
    ⟨by decide +kernel, by decide +kernel, by decide +kernel⟩
  obtain ⟨-, -, -, -, -, hscale, hpoint, -⟩ := zoom_laws h ⟨500, 300⟩ 7
  exact ⟨_, h, rfl, hscale.trans (by decide +kernel), hpoint⟩

end Viewport

end Wireboard
