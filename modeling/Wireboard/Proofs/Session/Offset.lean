import Wireboard.Proofs.Number.Arithmetic
import Wireboard.Proofs.Session.Transitions
import Wireboard.Proofs.Session.View

/-!
# The offset of the view

The offset is a sum of places on the screen and is multiplied when the view is zoomed, and nobody
checks the results: it can become infinite (`Session.not_offset_isFinite_unbounded`).  How far a run
can take it from places of ordinary size is bounded by a multiple of the scale.

* `Room r m`: places up to `r` are small beside an offset of `m`, and `m` is far from overflow.  With
  such room, a zoom and a move that pans take an offset of at most `b` times the scale to one of at
  most `creep * b` times the new scale (`within_zoomed`, `within_panned`);
* `Session.Steady r b s`: the offset, and the offset that a pan began with, are at most `b` times the
  scale.  A step multiplies `b` by `creep`, and by the ratio of the scale bounds if it lowers the scale
  during a pan (`Steady.step`);
* `Session.offset_run_of_open`: the bound on the size of places, the number of actions and the number
  of such dips under which the offset stays finite.
-/

namespace Wireboard

/-! ## points and bounds -/

namespace Point

/-- Both coordinates are finite and at most `r` in magnitude. -/
structure Within (r : Rat) (p : Point Float32) : Prop where
  x : Single.Within r p.x
  y : Single.Within r p.y

instance (r : Rat) (p : Point Float32) : Decidable (p.Within r) :=
  decidable_of_iff (Single.Within r p.x ∧ Single.Within r p.y)
    ⟨fun h => ⟨h.1, h.2⟩, fun h => ⟨h.x, h.y⟩⟩

variable {r r' : Rat} {p : Point Float32}

theorem Within.mono (h : p.Within r) (hr : r ≤ r') : p.Within r' :=
  ⟨h.x.mono hr, h.y.mono hr⟩

theorem Within.isFinite (h : p.Within r) : p.isFinite = true := by
  unfold Point.isFinite
  rw [Bool.and_eq_true]
  exact ⟨h.x.finite, h.y.finite⟩

theorem within_origin (hr : 0 ≤ r) : Within r .origin := by
  have hzero : Single.Within r 0.0 := by
    refine ⟨by decide +kernel, ?_⟩
    rw [show Single.value 0.0 = 0 by decide +kernel, abs_zero]
    exact hr
  exact ⟨hzero, hzero⟩

end Point

/-! ## one change of the offset -/

/-- Places up to `r` are small beside `m`, and `m` is far from overflow. -/
structure Room (r m : Rat) : Prop where
  one_le : 1 ≤ r
  small : 2 ^ 20 * r ≤ m
  huge : m ≤ 2 ^ 125

/-- The factor that stands for the places and for all roundings of one action. -/
def creep : Rat := 1 + 1 / 2 ^ 18

theorem one_le_creep : 1 ≤ creep := by
  unfold creep
  norm_num

namespace Single

variable {r b m : Rat} {p o anchor x x' : Float32}

/-- A pan: the offset at its beginning, and how far the pointer has come since. -/
theorem within_panned (hp : Within r p) (ha : Within r anchor) (ho : Within m o) (h : Room r m) :
    Within (creep * m) (o + (p - anchor)) := by
  obtain ⟨hone, hsmall, hhuge⟩ := h
  have hway : Within (ulp * (r + r)) (p - anchor) :=
    hp.sub ha (normal_of_one_le (by linarith) (by linarith))
  have hsum : ulp * (m + ulp * (r + r)) ≤ creep * m := by
    unfold ulp creep
    linarith
  refine (ho.add hway (normal_of_one_le ?_ ?_)).mono hsum
  · unfold ulp
    linarith
  · unfold ulp
    linarith

/-- A zoom around `p` from the scale `x` to the scale `x'`. -/
theorem within_zoomed (hp : Within r p) (ho : Within (b * value x) o) (hx : x.isFinite = true)
    (hx' : x'.isFinite = true) (hpos : 0 < value x) (hpos' : 0 < value x')
    (h : Room r (b * value x)) (h' : Room r (b * value x')) :
    Within (creep * (b * value x')) (p - (p - o) * (x' / x)) := by
  obtain ⟨hone, hsmall, hhuge⟩ := h
  obtain ⟨-, hsmall', hhuge'⟩ := h'
  obtain ⟨k, hk⟩ : ∃ k, value x' / value x = k := ⟨_, rfl⟩
  have hkpos : 0 < k := hk ▸ div_pos hpos' hpos
  -- the offset and the scale go up by the same factor
  have hscaled : b * value x * k = b * value x' := by
    rw [← hk, mul_assoc, mul_div_cancel₀ _ hpos.ne']
  generalize b * value x = m at *
  generalize b * value x' = m' at *
  have hm : 0 < m := by linarith
  have hrk : 2 ^ 20 * (r * k) ≤ m' := by
    rw [← hscaled, ← mul_assoc]
    exact mul_le_mul_of_nonneg_right hsmall hkpos.le
  have hrk0 : 0 < r * k := mul_pos (by linarith) hkpos
  have hnormal : Normal k := by
    rw [show k = m' / m by rw [eq_div_iff hm.ne', mul_comm]; exact hscaled]
    exact ⟨(le_div_iff₀ hm).2 (by linarith), (div_le_iff₀ hm).2 (by linarith)⟩
  have hratio : Within (ulp * k) (x' / x) := by
    have hself : Within (value x') x' := ⟨hx', (abs_of_pos hpos').le⟩
    rw [← hk] at hnormal ⊢
    exact hself.div hx hpos hnormal
  have harm : Within (ulp * (r + m)) (p - o) :=
    hp.sub ho (normal_of_one_le (by linarith) (by linarith))
  have hproduct : ulp * (r + m) * (ulp * k) = ulp ^ 2 * (r * k + m') := by
    rw [← hscaled]
    ring
  have hturned : Within (ulp * (ulp ^ 2 * (r * k + m'))) ((p - o) * (x' / x)) := by
    rw [← hproduct]
    refine harm.mul hratio ?_
    rw [hproduct]
    unfold ulp
    exact normal_of_one_le (by linarith) (by linarith)
  have hsum : ulp * (r + ulp * (ulp ^ 2 * (r * k + m'))) ≤ creep * m' := by
    unfold ulp creep
    linarith
  refine (hp.sub hturned (normal_of_one_le ?_ ?_)).mono hsum
  · unfold ulp
    linarith
  · unfold ulp
    linarith

end Single

namespace Viewport

variable {r b : Rat} {v : Viewport Float32} {p anchor origin : Point Float32}

/-- The greatest scale as a multiple of the least. -/
def zoomRange (v : Viewport Float32) : Rat := Single.value v.maxScale / Single.value v.minScale

theorem Bounded.one_le_zoomRange (h : v.Bounded) (hpos : 0.0 < v.minScale) : 1 ≤ v.zoomRange := by
  obtain ⟨hmin, hle, hle'⟩ := h.value_scale hpos
  exact (one_le_div hmin).2 (hle.trans hle')

theorem SameBounds.zoomRange_eq {v' : Viewport Float32} (h : SameBounds v v') :
    v'.zoomRange = v.zoomRange := by
  unfold zoomRange
  rw [h.min_eq, h.max_eq]

/-- There is room at every scale. -/
structure Roomy (r b : Rat) (v : Viewport Float32) : Prop where
  bounded : v.Bounded
  pos : 0.0 < v.minScale
  one_le : 1 ≤ r
  small : 2 ^ 20 * r ≤ b * Single.value v.minScale
  huge : b * Single.value v.maxScale ≤ 2 ^ 125

theorem Roomy.coeff_pos (h : v.Roomy r b) : 0 < b := by
  have hone := h.one_le
  have hsmall := h.small
  obtain ⟨hmin, -⟩ := h.bounded.value_scale h.pos
  exact (mul_pos_iff_of_pos_right hmin).1 (by linarith)

theorem Roomy.scale_pos (h : v.Roomy r b) : 0 < Single.value v.scale :=
  (Single.pos_iff h.bounded.scale_finite).1 (h.bounded.scale_pos h.pos)

theorem Roomy.le_creep (h : v.Roomy r b) :
    b * Single.value v.scale ≤ creep * (b * Single.value v.scale) :=
  le_mul_of_one_le_left (mul_pos h.coeff_pos h.scale_pos).le one_le_creep

theorem Roomy.room (h : v.Roomy r b) : Room r (b * Single.value v.scale) := by
  obtain ⟨-, hle, hle'⟩ := h.bounded.value_scale h.pos
  have hb := h.coeff_pos.le
  exact ⟨h.one_le, h.small.trans (mul_le_mul_of_nonneg_left hle hb),
    (mul_le_mul_of_nonneg_left hle' hb).trans h.huge⟩

theorem Roomy.of_sameBounds {v' : Viewport Float32} (h : v.Roomy r b) (hv : SameBounds v v')
    (hbounded : v'.Bounded) : v'.Roomy r b := by
  obtain ⟨-, hpos, hone, hsmall, hhuge⟩ := h
  rw [← hv.min_eq] at hpos hsmall
  rw [← hv.max_eq] at hhuge
  exact ⟨hbounded, hpos, hone, hsmall, hhuge⟩

/-- A move that pans. -/
theorem Roomy.within_place (h : v.Roomy r b) (hp : p.Within r) (ha : anchor.Within r)
    (ho : origin.Within (b * Single.value v.scale)) :
    (v.place (origin + (p - anchor)) v.scale).offset.Within
        (creep * (b * Single.value (v.place (origin + (p - anchor)) v.scale).scale)) := by
  have hscale : (v.place (origin + (p - anchor)) v.scale).scale = v.scale :=
    h.bounded.clampScale_scale
  rw [hscale]
  exact ⟨Single.within_panned hp.x ha.x ho.x h.room, Single.within_panned hp.y ha.y ho.y h.room⟩

/-- A zoom, which does nothing at a place that is not finite. -/
theorem Roomy.within_zoomAt (h : v.Roomy r b) (delta : Float32)
    (hp : p.isFinite = true → p.Within r) (ho : v.offset.Within (b * Single.value v.scale)) :
    (v.zoomAt p delta).offset.Within (creep * (b * Single.value (v.zoomAt p delta).scale)) := by
  obtain ⟨hbounded, hsame⟩ := h.bounded.zoomAt p delta
  have h' := h.of_sameBounds hsame hbounded
  by_cases hfinite : (p.isFinite && Scalar.isFinite delta) = true
  · have heq : v.zoomAt p delta =
        { v with
          offset := p - (p - v.offset).scale (v.clampScale (v.scale + delta) / v.scale)
          scale := v.clampScale (v.scale + delta) } := if_pos hfinite
    rw [heq] at h' ⊢
    have hp' := hp (Bool.and_eq_true_iff.1 hfinite).1
    have hzoomed : ∀ {q o : Float32}, Single.Within r q →
        Single.Within (b * Single.value v.scale) o →
        Single.Within (creep * (b * Single.value (v.clampScale (v.scale + delta))))
          (q - (q - o) * (v.clampScale (v.scale + delta) / v.scale)) := fun hq ho =>
      Single.within_zoomed hq ho h.bounded.scale_finite h'.bounded.scale_finite h.scale_pos
        h'.scale_pos h.room h'.room
    exact ⟨hzoomed hp'.x ho.x, hzoomed hp'.y ho.y⟩
  · have heq : v.zoomAt p delta = v := if_neg hfinite
    rw [heq]
    exact ho.mono h.le_creep

/-- Unless all scales are below one, the graph point at the corner of the screen is finite. -/
theorem Roomy.isFinite_toGraph_origin (h : v.Roomy r b)
    (ho : v.offset.Within (b * Single.value v.scale)) (hmax : 1 ≤ Single.value v.maxScale) :
    (v.toGraph .origin).isFinite = true := by
  obtain ⟨hone, hsmall, hhuge⟩ := h.room
  have hpos := h.scale_pos
  have hb : b ≤ 2 ^ 125 := (le_mul_of_one_le_right h.coeff_pos.le hmax).trans h.huge
  have hcoordinate : ∀ {o : Float32}, Single.Within (b * Single.value v.scale) o →
      ((0.0 - o) / v.scale).isFinite = true := by
    intro o ho
    have hzero : Single.Within 0 0.0 := (Point.within_origin le_rfl).x
    have hnormal : Single.Normal (0 + b * Single.value v.scale) :=
      Single.normal_of_one_le (by linarith) (by linarith)
    have hway : Single.Within (2 ^ 126 * Single.value v.scale) (0.0 - o) := by
      refine (hzero.sub ho hnormal).mono ?_
      rw [zero_add, ← mul_assoc]
      refine mul_le_mul_of_nonneg_right ?_ hpos.le
      unfold Single.ulp
      linarith
    have hquotient : Single.Normal (2 ^ 126 * Single.value v.scale / Single.value v.scale) := by
      rw [mul_div_cancel_right₀ _ hpos.ne']
      exact Single.normal_of_one_le (by norm_num) (by norm_num)
    exact (hway.div h.bounded.scale_finite hpos hquotient).finite
  unfold Point.isFinite
  rw [Bool.and_eq_true]
  exact ⟨hcoordinate ho.x, hcoordinate ho.y⟩

end Viewport

/-! ## runs -/

/-- The place on the screen that the view after the action depends on. -/
def Action.place? : Action Float32 → Option (Point Float32)
  | .press e => some e.place
  | .move p | .wheel p _ | .zoomIn p | .zoomOut p => some p
  | _ => none

/-- If the place that matters is finite, its coordinates are at most `r`. -/
def Action.Near (r : Rat) (a : Action Float32) : Prop :=
  ∀ p ∈ a.place?, p.isFinite = true → p.Within r

instance (r : Rat) (a : Action Float32) : Decidable (a.Near r) :=
  inferInstanceAs (Decidable (∀ p ∈ a.place?, p.isFinite = true → p.Within r))

/-- The canvas is being moved. -/
def Gesture.isPanning : Gesture Float32 → Bool
  | .panning _ _ => true
  | _ => false

namespace Session

variable {s : Session Float32} {r b : Rat} {a : Action Float32}

/-- The action lowers the scale while the canvas is being moved. -/
def dips (s : Session Float32) (a : Action Float32) : Bool :=
  s.gesture.isPanning && decide ((s.step a).viewport.scale < s.viewport.scale)

/-- How often a run lowers the scale while the canvas is being moved. -/
def dipCount (s : Session Float32) : List (Action Float32) → Nat
  | [] => 0
  | a :: as => (s.dips a).toNat + (s.step a).dipCount as

/-- How much farther the offset may be after the run, measured in multiples of the scale. -/
def growth (s : Session Float32) (as : List (Action Float32)) : Rat :=
  creep ^ as.length * s.viewport.zoomRange ^ s.dipCount as

/-- The offset, and the offset that a pan began with, are at most `b` times the scale, and a pan began
at a place of at most `r`. -/
structure Steady (r b : Rat) (s : Session Float32) : Prop where
  sound : s.Sound
  offset : s.viewport.offset.Within (b * Single.value s.viewport.scale)
  panning : ∀ anchor origin, s.gesture = .panning anchor origin →
    anchor.Within r ∧ origin.Within (b * Single.value s.viewport.scale)

/-- A pan goes on, or has just begun with the offset that there was. -/
theorem panning_step (hs : s.Sound) {anchor origin : Point Float32}
    (h : (s.step a).gesture = .panning anchor origin) :
    s.gesture = .panning anchor origin ∨
      (a.place? = some anchor ∧ anchor.isFinite = true ∧ origin = s.viewport.offset ∧
        (s.step a).viewport = s.viewport) := by
  by_cases hidle : s.gesture = .idle
  · right
    have hpress : ∃ e, a = .press e ∧ e.place.isFinite = true := by
      by_contra hno
      push Not at hno
      rw [gesture_step_of_idle hs hidle fun e he => by simpa using hno e he] at h
      cases h
    obtain ⟨e, rfl, hp⟩ := hpress
    have hview : (s.step (.press e)).viewport = s.viewport := (sameView_press s e).viewport
    change (s.press e).gesture = _ at h
    rcases gesture_press hidle hp with hbegins | ⟨hnone, -⟩
    · rw [h] at hbegins
      cases hbegins with
      | pan => exact ⟨rfl, hp, rfl, hview⟩
      | panWithCtrl => exact ⟨rfl, hp, rfl, hview⟩
    · rw [hnone] at h
      cases h
  · left
    rcases endsOrContinues_step hs hidle a with ⟨-, hnone⟩ | ⟨-, hcontinues⟩
    · rw [hnone] at h
      cases h
    · rw [h] at hcontinues
      generalize s.gesture = g at hcontinues ⊢
      cases hcontinues
      rfl

theorem place?_of_zoom? {p : Point Float32} {delta : Float32} (h : s.zoom? a = some (p, delta)) :
    a.place? = some p := by
  cases a <;> simp_all [zoom?, Action.place?]

theorem growth_singleton (s : Session Float32) (a : Action Float32) :
    s.growth [a] = creep * s.viewport.zoomRange ^ (s.dips a).toNat := by
  simp [growth, dipCount]

theorem growth_cons (hs : s.viewport.Bounded) (a : Action Float32) (as : List (Action Float32)) :
    s.growth (a :: as) = s.growth [a] * (s.step a).growth as := by
  have hrange := (bounded_step hs a).2.zoomRange_eq
  rw [growth_singleton]
  simp only [growth, dipCount, hrange, List.length_cons]
  ring

theorem creep_le_growth (h : s.viewport.Roomy r b) (a : Action Float32) : creep ≤ s.growth [a] := by
  have hone := one_le_pow₀ (h.bounded.one_le_zoomRange h.pos) (n := (s.dips a).toNat)
  rw [growth_singleton]
  exact le_mul_of_one_le_right (zero_le_one.trans one_le_creep) hone

/-- While the canvas is being moved, the growth makes up for every fall of the scale. -/
theorem scale_le_growth (h : s.viewport.Roomy r b) (hg : s.gesture.isPanning = true) :
    Single.value s.viewport.scale ≤ s.growth [a] * Single.value (s.step a).viewport.scale := by
  obtain ⟨hbounded, hsame⟩ := bounded_step h.bounded a
  have h' := h.of_sameBounds hsame hbounded
  obtain ⟨hmin, -, hmax⟩ := h.bounded.value_scale h.pos
  obtain ⟨-, hle', -⟩ := h'.bounded.value_scale h'.pos
  have hpos' := h'.scale_pos
  have hcreep := creep_le_growth h a
  by_cases hlt : (s.step a).viewport.scale < s.viewport.scale
  · have hdip : s.dips a = true := by simp [dips, hg, hlt]
    have hrange : Single.value s.viewport.maxScale =
        s.viewport.zoomRange * Single.value s.viewport.minScale :=
      (div_mul_cancel₀ _ hmin.ne').symm
    have hone := h.bounded.one_le_zoomRange h.pos
    calc Single.value s.viewport.scale ≤ s.viewport.zoomRange * Single.value s.viewport.minScale :=
          hmax.trans_eq hrange
      _ ≤ s.viewport.zoomRange * Single.value (s.step a).viewport.scale := by
          rw [← hsame.min_eq]
          gcongr
      _ ≤ s.growth [a] * Single.value (s.step a).viewport.scale := by
          rw [growth_singleton, hdip, Bool.toNat_true, pow_one]
          gcongr
          exact le_mul_of_one_le_left (zero_le_one.trans hone) one_le_creep
  · have hge := (Single.le_iff h.bounded.scale_finite hbounded.scale_finite).1
      ((Single.not_lt_iff hbounded.scale_finite h.bounded.scale_finite).1 hlt)
    exact hge.trans (le_mul_of_one_le_left hpos'.le (one_le_creep.trans hcreep))

theorem Steady.step (h : Steady r b s) (hroomy : s.viewport.Roomy r b) (ha : a.Near r) :
    Steady r (b * s.growth [a]) (s.step a) := by
  obtain ⟨hbounded, hsame⟩ := bounded_step hroomy.bounded a
  have hroomy' := hroomy.of_sameBounds hsame hbounded
  have hb := hroomy.coeff_pos
  have hpos := hroomy'.scale_pos
  have hcreep := creep_le_growth hroomy a
  have hgrown : creep * (b * Single.value (s.step a).viewport.scale) ≤
      b * s.growth [a] * Single.value (s.step a).viewport.scale := by
    rw [← mul_assoc, mul_comm creep]
    gcongr
  refine ⟨h.sound.step a, Point.Within.mono ?_ hgrown, ?_⟩
  · have hviews := step_views s a
    generalize (s.step a).viewport = v at hviews hpos
    cases hviews with
    | same => exact h.offset.mono hroomy.le_creep
    | pan hp hg =>
      obtain ⟨hanchor, horigin⟩ := h.panning _ _ hg
      exact hroomy.within_place (ha _ rfl hp) hanchor horigin
    | zoom hz => exact hroomy.within_zoomAt _ (ha _ (place?_of_zoom? hz)) h.offset
    | reset =>
      have hcreepPos := zero_lt_one.trans_le one_le_creep
      exact Point.within_origin (mul_pos hcreepPos (mul_pos hb hpos)).le
  · intro anchor origin hg
    rcases panning_step h.sound hg with hgoes | ⟨hplace, hfinite, rfl, hview⟩
    · obtain ⟨hanchor, horigin⟩ := h.panning _ _ hgoes
      refine ⟨hanchor, horigin.mono ?_⟩
      rw [mul_assoc]
      have hpanning : s.gesture.isPanning = true := by rw [hgoes]; rfl
      exact mul_le_mul_of_nonneg_left (scale_le_growth hroomy hpanning) hb.le
    · refine ⟨ha _ hplace hfinite, h.offset.mono ?_⟩
      rw [hview] at hgrown ⊢
      exact hroomy.le_creep.trans hgrown

theorem one_le_growth (hs : s.viewport.Bounded) (hpos : 0.0 < s.viewport.minScale)
    (as : List (Action Float32)) : 1 ≤ s.growth as :=
  one_le_mul_of_one_le_of_one_le (one_le_pow₀ one_le_creep)
    (one_le_pow₀ (hs.one_le_zoomRange hpos))

/-- With room for all the growth, a run keeps the offset within the grown bound. -/
theorem Steady.run {as : List (Action Float32)} (h : Steady r b s)
    (hroomy : s.viewport.Roomy r b) (has : ∀ a ∈ as, a.Near r)
    (hhuge : b * s.growth as * Single.value s.viewport.maxScale ≤ 2 ^ 125) :
    Steady r (b * s.growth as) (s.run as) ∧ (s.run as).viewport.Roomy r (b * s.growth as) := by
  induction as generalizing s b with
  | nil =>
    have hone : s.growth [] = 1 := by simp [growth, dipCount]
    rw [hone, mul_one]
    exact ⟨h, hroomy⟩
  | cons a as ih =>
    obtain ⟨hbounded, hsame⟩ := bounded_step hroomy.bounded a
    have hstep := h.step hroomy (has a List.mem_cons_self)
    have hpos' : 0.0 < (s.step a).viewport.minScale := by
      rw [hsame.min_eq]
      exact hroomy.pos
    have hb := hroomy.coeff_pos
    have hone := one_le_growth hroomy.bounded hroomy.pos [a]
    have hone' := one_le_growth hbounded hpos' as
    obtain ⟨hmin, hle, hmax⟩ := hroomy.bounded.value_scale hroomy.pos
    rw [growth_cons hroomy.bounded, ← mul_assoc] at hhuge ⊢
    have hgrown : b ≤ b * s.growth [a] := le_mul_of_one_le_right hb.le hone
    have hroomy' : (s.step a).viewport.Roomy r (b * s.growth [a]) := by
      refine ⟨hbounded, hpos', hroomy.one_le, ?_, ?_⟩
      · rw [hsame.min_eq]
        exact hroomy.small.trans (mul_le_mul_of_nonneg_right hgrown hmin.le)
      · rw [hsame.max_eq]
        refine le_trans (mul_le_mul_of_nonneg_right ?_ (hmin.le.trans (hle.trans hmax))) hhuge
        exact le_mul_of_one_le_right (hb.le.trans hgrown) hone'
    refine ih hstep hroomy' (fun a ha => has a (List.mem_cons_of_mem _ ha)) ?_
    rw [hsame.max_eq]
    exact hhuge

theorem steady_of_open {settings : Settings Float32} {d : Diagram Float32} (hd : d.Sound)
    (hopen : open? settings d = some s) (hr : 1 ≤ r)
    (hsize : r * s.viewport.zoomRange ≤ 2 ^ 105) :
    Steady r (2 ^ 20 * r / Single.value s.viewport.minScale) s ∧
      s.viewport.Roomy r (2 ^ 20 * r / Single.value s.viewport.minScale) := by
  obtain ⟨-, hbounded, hmin, -⟩ := bounded_of_open hopen
  have hpos : 0.0 < s.viewport.minScale := by
    rw [hmin]
    exact settings.usable_repaired.pos
  obtain ⟨hminPos, hle, -⟩ := hbounded.value_scale hpos
  have hsound := sound_of_open hd hopen
  rw [open?_eq, Option.some.injEq] at hopen
  have hidle : s.gesture = .idle := by rw [← hopen]
  have hoffset : s.viewport.offset = .origin := by rw [← hopen]
  refine ⟨⟨hsound, ?_, fun anchor origin hg => ?_⟩, hbounded, hpos, hr, ?_, ?_⟩
  · rw [hoffset]
    exact Point.within_origin
      (mul_nonneg (div_nonneg (by linarith) hminPos.le) (hminPos.trans_le hle).le)
  · rw [hidle] at hg
    cases hg
  · rw [div_mul_cancel₀ _ hminPos.ne']
  · have hrange : 2 ^ 20 * r / Single.value s.viewport.minScale * Single.value s.viewport.maxScale =
        2 ^ 20 * (r * s.viewport.zoomRange) := by
      unfold Viewport.zoomRange
      ring
    rw [hrange]
    linarith

/-- **How far the view can be moved.**  Take any settings, and a run of `n` actions with all places on
the screen at most `r` or not finite at all, and with any wheel movements, that lowers the scale `c`
times while the canvas is being moved.  Let `R` be the ratio of the scale bounds.  As long as
`r * R ^ (c + 1) * creep ^ n` is at most `2 ^ 105`, the offset is finite, and so is the graph point at
the corner of the screen if scales of one and above are allowed. -/
theorem offset_run_of_open {settings : Settings Float32} {supply : List String}
    {es : List (Edit Float32)} (hopen : open? settings ((Diagram.empty supply).run es) = some s)
    (hr : 1 ≤ r) {as : List (Action Float32)} (has : ∀ a ∈ as, a.Near r)
    (hsize : r * s.viewport.zoomRange ^ (s.dipCount as + 1) * creep ^ as.length ≤ 2 ^ 105) :
    (s.run as).viewport.offset.isFinite = true ∧
      (1.0 ≤ (s.run as).viewport.maxScale →
        ((s.run as).viewport.toGraph .origin).isFinite = true) := by
  obtain ⟨-, hbounded, hmin, -⟩ := bounded_of_open hopen
  have hpos : 0.0 < s.viewport.minScale := by
    rw [hmin]
    exact settings.usable_repaired.pos
  have hgrowth := one_le_growth hbounded hpos as
  have hrange := hbounded.one_le_zoomRange hpos
  -- the growth is a factor of the bound on the size
  have htotal : r * s.viewport.zoomRange * s.growth as =
      r * s.viewport.zoomRange ^ (s.dipCount as + 1) * creep ^ as.length := by
    unfold growth
    ring
  rw [← htotal] at hsize
  have hstart : r * s.viewport.zoomRange ≤ 2 ^ 105 :=
    (le_mul_of_one_le_right (by positivity) hgrowth).trans hsize
  obtain ⟨hsteady, hroomy⟩ := steady_of_open (Diagram.reached_run supply es).sound hopen hr hstart
  have hhuge : 2 ^ 20 * r / Single.value s.viewport.minScale * s.growth as *
      Single.value s.viewport.maxScale ≤ 2 ^ 125 := by
    have heq : 2 ^ 20 * r / Single.value s.viewport.minScale * s.growth as *
        Single.value s.viewport.maxScale = 2 ^ 20 * (r * s.viewport.zoomRange * s.growth as) := by
      unfold Viewport.zoomRange
      ring
    rw [heq]
    linarith
  obtain ⟨hlater, hroomy'⟩ := hsteady.run hroomy has hhuge
  refine ⟨hlater.offset.isFinite, fun hone => ?_⟩
  refine hroomy'.isFinite_toGraph_origin hlater.offset ?_
  have hval : Single.value 1.0 = 1 := by decide +kernel
  rw [← hval]
  exact (Single.le_iff (by decide +kernel) hroomy'.bounded.max_finite).1 hone

/-- The canvas is moved, the view is zoomed out meanwhile, and the canvas is moved on. -/
theorem offset_run_of_open_dipped :
    ∃ s : Session Float32, Reached [] s ∧ s.gesture.isPanning = true ∧
      s.viewport.offset.isFinite = true ∧ (s.viewport.toGraph .origin).isFinite = true := by
  let as : List (Action Float32) :=
    [.press ⟨⟨10.0, 20.0⟩, .middle, false, .canvas⟩, .move ⟨800.0, 600.0⟩,
      .wheel ⟨400.0, 300.0⟩ 500.0, .move ⟨0.0 / 0.0, 0.0⟩, .move ⟨700.0, 500.0⟩]
  obtain ⟨s, hopen⟩ := exists_open? .initial ((Diagram.empty []).run [])
  have hnear : ∀ a ∈ as, a.Near 1000 := by decide +kernel
  have hstate : (open? .initial ((Diagram.empty []).run [])).map
      (fun s =>
        (decide (1000 * s.viewport.zoomRange ^ (s.dipCount as + 1) * creep ^ as.length ≤ 2 ^ 105),
          (s.run as).gesture.isPanning, decide (1.0 ≤ (s.run as).viewport.maxScale))) =
      some (true, true, true) := by decide +kernel
  rw [hopen, Option.map_some, Option.some.injEq, Prod.mk.injEq, Prod.mk.injEq, decide_eq_true_iff,
    decide_eq_true_iff] at hstate
  obtain ⟨hsize, hpanning, hone⟩ := hstate
  obtain ⟨hfinite, hcorner⟩ := offset_run_of_open hopen (by norm_num) hnear hsize
  exact ⟨s.run as, ⟨.initial, [], s, as, hopen, rfl⟩, hpanning, hfinite, hcorner hone⟩

/-- Neither the places nor the dips can go without a bound.  The canvas is moved from one end of what
coordinates can be to the other, and the offset is infinite, with the graph point at the corner of the
screen.  Or the places are those of an ordinary screen, and again and again the view is zoomed in, a
pan begins, the view is zoomed out, and the next move brings back the offset that the pan began with:
each time it is thirty times as far away. -/
theorem not_offset_isFinite_unbounded :
    (∃ (s : Session Float32) (as : List (Action Float32)),
      open? .initial ((Diagram.empty []).run []) = some s ∧ s.dipCount as = 0 ∧
      (∀ a ∈ as, ∀ p ∈ a.place?, p.isFinite = true) ∧
      (s.run as).viewport.offset.isFinite = false ∧
      ((s.run as).viewport.toGraph .origin).isFinite = false) ∧
    ∃ (s : Session Float32) (as : List (Action Float32)),
      open? .initial ((Diagram.empty []).run []) = some s ∧ s.dipCount as = 25 ∧
      (∀ a ∈ as, a.Near 1000) ∧ (s.run as).viewport.offset.isFinite = false := by
  obtain ⟨s, hopen⟩ := exists_open? .initial ((Diagram.empty []).run [])
  constructor
  · let as : List (Action Float32) :=
      [.press ⟨⟨-3e38, 0.0⟩, .middle, false, .canvas⟩, .move ⟨3e38, 0.0⟩]
    have hstate : (open? .initial ((Diagram.empty []).run [])).map
        (fun s => (s.dipCount as, (s.run as).viewport.offset.isFinite,
          ((s.run as).viewport.toGraph .origin).isFinite)) = some (0, false, false) := by
      decide +kernel
    rw [hopen, Option.map_some, Option.some.injEq, Prod.mk.injEq, Prod.mk.injEq] at hstate
    obtain ⟨hdips, hoffset, hcorner⟩ := hstate
    exact ⟨s, as, hopen, hdips, by decide +kernel, hoffset, hcorner⟩
  · let start : List (Action Float32) :=
      [.press ⟨⟨0.0, 0.0⟩, .middle, false, .canvas⟩, .move ⟨1000.0, 0.0⟩, .cancel]
    let round : List (Action Float32) :=
      [.wheel ⟨0.0, 0.0⟩ (-5000.0), .press ⟨⟨0.0, 0.0⟩, .middle, false, .canvas⟩,
        .wheel ⟨0.0, 0.0⟩ 5000.0, .move ⟨0.0, 0.0⟩, .cancel]
    let as : List (Action Float32) := start ++ (List.replicate 25 round).flatten
    have hstate : (open? .initial ((Diagram.empty []).run [])).map
        (fun s => (s.dipCount as, (s.run as).viewport.offset.isFinite)) = some (25, false) := by
      decide +kernel
    rw [hopen, Option.map_some, Option.some.injEq, Prod.mk.injEq] at hstate
    exact ⟨s, as, hopen, hstate.1, by decide +kernel, hstate.2⟩

end Session

end Wireboard
