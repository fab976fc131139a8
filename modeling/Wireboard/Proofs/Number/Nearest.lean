import Wireboard.Proofs.Number.Arithmetic

/-!
# Nearest numbers

* `Rounded.abs_sub_le_of_stored`: no number of the format is nearer to what was rounded than what it was
  rounded to.  So rounding leaves the numbers of the format alone (`Rounded.value_eq_of_stored`);
* `Rounded.abs_sub_le_of_multiple`: what is made of the last bits of the format is rounded with an error
  relative to its size, however small it is; `Rounded.value_eq_of_multiple`: without one if it has few
  enough digits;
* `Rounded.value_eq_of_near`: conversely, the nearest number on the grid, or the even one of two, is what a
  number is rounded to;
* `Single.abs_sub_sub_le`: a single that is taken away from another one and this from that again comes
  back but for twice the error of the first difference; so it does when the difference from another one
  is added to that (`Single.abs_add_sub_le`).
-/

namespace Wireboard

open Float.Model (Format UnpackedFloat)

namespace Binary

variable {f : Format} {q : Rat} {u y : UnpackedFloat} {t t' : Int}

/-- Of the multiples of a step, the one at most half a step away is a nearest one. -/
theorem abs_sub_le_of_half {step : Rat} {n : Int} (hn : |n * step - q| ≤ step / 2) (k : Int) :
    |n * step - q| ≤ |k * step - q| := by
  have hstep : 0 ≤ step := by linarith [(abs_nonneg _).trans hn]
  by_cases hk : k = n
  · rw [hk]
  · have hone : (1 : Rat) ≤ |(k : Rat) - n| := by
      exact_mod_cast Int.one_le_abs (sub_ne_zero.2 hk)
    have happart : step ≤ |k * step - n * step| := by
      rw [← sub_mul, abs_mul, abs_of_nonneg hstep]
      exact le_mul_of_one_le_left hstep hone
    have htriangle := abs_sub_le (k * step) q (n * step)
    rw [abs_sub_comm q] at htriangle
    linarith

/-- A number of the format is a multiple of the step `2 ^ t`, or it is so small that its own steps are
finer. -/
theorem multiple_or_small (hy : Stored f y) (fy : y.isFinite = true) (t : Int) :
    (∃ k : Int, value y = k * 2 ^ t) ∨
      f.minExponent < t ∧ |value y| < 2 ^ (t + f.mantissaBitsWithoutImplicit) := by
  cases y with
  | infinity s => cases fy
  | notANumber => cases fy
  | zero s => exact .inl ⟨0, by rw [value_zero, Int.cast_zero, zero_mul]⟩
  | finite s m e hm =>
    rcases le_or_gt t e with h | h
    · exact .inl ⟨_, decreaseExponent_value s h⟩
    · have hlt : (m : Rat) < 2 ^ f.mantissaBits := by exact_mod_cast hy.lt
      have hbits := mantissaBits_eq f
      refine .inr ⟨hy.least.trans_lt h, ?_⟩
      rw [value_finite, abs_signed, abs_of_nonneg (by positivity)]
      calc (m : Rat) * 2 ^ e < 2 ^ f.mantissaBits * 2 ^ e := by gcongr
        _ = 2 ^ (f.mantissaBits + e : Int) := by rw [zpow_add₀ (by norm_num), zpow_natCast]
        _ ≤ 2 ^ (t + f.mantissaBitsWithoutImplicit) := by
          refine zpow_le_zpow_right₀ (by norm_num) ?_
          omega

/-- All numbers of the format are multiples of its least step. -/
theorem exists_multiple (hy : Stored f y) (fy : y.isFinite = true) :
    ∃ k : Int, value y = k * 2 ^ f.minExponent :=
  (multiple_or_small hy fy _).resolve_right fun h => h.1.false

/-- The numbers of the format above a mantissa begin with the next one. -/
theorem succ_le_of_lt {m : Nat} {e : Int} (hm : Canonical f m e) (hy : Stored f y)
    (fy : y.isFinite = true) (hlt : (m : Rat) * 2 ^ e < value y) : (m + 1) * 2 ^ e ≤ value y := by
  have hstep : (0 : Rat) < 2 ^ e := by positivity
  rcases multiple_or_small hy fy e with ⟨k, hk⟩ | ⟨hgt, hsmall⟩
  · rw [hk] at hlt ⊢
    have hmk : (m : Rat) < k := lt_of_mul_lt_mul_right hlt hstep.le
    have hmk' : (m : Int) + 1 ≤ k := by exact_mod_cast hmk
    have hcast : (m : Rat) + 1 ≤ k := by exact_mod_cast hmk'
    gcongr
  · have hfull : ((2 ^ f.mantissaBitsWithoutImplicit : Nat) : Rat) ≤ m := by
      exact_mod_cast hm.full.resolve_right hgt.ne'
    rw [add_comm, zpow_add₀ (by norm_num), zpow_natCast] at hsmall
    push_cast at hfull
    have := (le_abs_self (value y)).trans_lt hsmall
    linarith [mul_le_mul_of_nonneg_right hfull hstep.le]

/-- The numbers of the format below a mantissa that is not the least of its binade end with the one
before. -/
theorem le_pred_of_lt {m : Nat} {e : Int} (hm : 2 ^ f.mantissaBitsWithoutImplicit < m)
    (hy : Stored f y) (fy : y.isFinite = true) (hlt : value y < m * 2 ^ e) :
    value y ≤ (m - 1) * 2 ^ e := by
  have hstep : (0 : Rat) < 2 ^ e := by positivity
  rcases multiple_or_small hy fy e with ⟨k, hk⟩ | ⟨-, hsmall⟩
  · rw [hk] at hlt ⊢
    have hkm : (k : Rat) < m := lt_of_mul_lt_mul_right hlt hstep.le
    have hkm' : k ≤ (m : Int) - 1 := by
      have : k < (m : Int) := by exact_mod_cast hkm
      omega
    have hcast : (k : Rat) ≤ m - 1 := by exact_mod_cast hkm'
    gcongr
  · have hfull : ((2 ^ f.mantissaBitsWithoutImplicit : Nat) : Rat) + 1 ≤ m := by exact_mod_cast hm
    rw [add_comm, zpow_add₀ (by norm_num), zpow_natCast] at hsmall
    push_cast at hfull
    have := (le_abs_self (value y)).trans hsmall.le
    refine this.trans (mul_le_mul_of_nonneg_right ?_ hstep.le)
    linarith

/-- **Rounding goes to a nearest number of the format.** -/
theorem Rounded.abs_sub_le_of_stored (h : Rounded f q u) (hy : Stored f y) (fy : y.isFinite = true) :
    |value u - q| ≤ |value y - q| := by
  obtain ⟨t, hgrid, n, hn, hhalf, -⟩ := h.near
  rw [hn] at hhalf ⊢
  rcases multiple_or_small hy fy t with ⟨k, hk⟩ | ⟨hlt, hsmall⟩
  · rw [hk]
    exact abs_sub_le_of_half hhalf k
  · -- the least number of the binade of `q`, with the sign of `q`, lies between `y` and `q`
    have hfull := hgrid.full.resolve_right hlt.ne'
    have hleast : ((2 ^ f.mantissaBitsWithoutImplicit : Int) : Rat) * 2 ^ t =
        2 ^ (t + f.mantissaBitsWithoutImplicit) := by
      rw [zpow_add₀ (by norm_num), zpow_natCast]
      push_cast
      ring
    have hbetween : |q| - 2 ^ (t + f.mantissaBitsWithoutImplicit) ≤ |value y - q| := by
      have htriangle := abs_sub_abs_le_abs_sub q (value y)
      rw [abs_sub_comm q] at htriangle
      linarith
    refine le_trans ?_ hbetween
    rcases le_total 0 q with hq | hq
    · refine (abs_sub_le_of_half hhalf (2 ^ f.mantissaBitsWithoutImplicit)).trans_eq ?_
      rw [abs_of_nonneg hq] at hfull ⊢
      rw [hleast, abs_of_nonpos (by linarith)]
      ring
    · refine (abs_sub_le_of_half hhalf (-2 ^ f.mantissaBitsWithoutImplicit)).trans_eq ?_
      rw [abs_of_nonpos hq] at hfull ⊢
      rw [Int.cast_neg, neg_mul, hleast, abs_of_nonneg (by linarith)]
      ring

/-- So the result is at most twice as far from such a number as what was rounded. -/
theorem Rounded.abs_sub_stored_le (h : Rounded f q u) (hy : Stored f y) (fy : y.isFinite = true) :
    |value u - value y| ≤ 2 * |value y - q| := by
  have hnearest := h.abs_sub_le_of_stored hy fy
  have hsplit : value u - value y = value u - q - (value y - q) := by ring
  rw [hsplit]
  linarith [abs_sub (value u - q) (value y - q)]

/-- What is rounded is not below the middle between the nearest number and a smaller one. -/
theorem Rounded.add_le (h : Rounded f q u) (hy : Stored f y) (fy : y.isFinite = true)
    (hlt : value y < value u) : value y + value u ≤ 2 * q := by
  have hsq := sq_le_sq.2 (h.abs_sub_le_of_stored hy fy)
  refine le_of_mul_le_mul_left (a := value u - value y) ?_ (sub_pos.2 hlt)
  linarith

theorem Rounded.le_add (h : Rounded f q u) (hy : Stored f y) (fy : y.isFinite = true)
    (hlt : value u < value y) : 2 * q ≤ value u + value y := by
  have hsq := sq_le_sq.2 (h.abs_sub_le_of_stored hy fy)
  refine le_of_mul_le_mul_left (a := value y - value u) ?_ (sub_pos.2 hlt)
  linarith

/-- A number of the format that is not above what is rounded is not above the result. -/
theorem Rounded.le_of_stored (h : Rounded f q u) (hy : Stored f y) (fy : y.isFinite = true)
    (hle : value y ≤ q) : value y ≤ value u := by
  by_contra hlt
  linarith [h.le_add hy fy (not_le.1 hlt)]

theorem Rounded.nonneg (h : Rounded f q u) (hq : 0 ≤ q) : 0 ≤ value u :=
  h.le_of_stored (y := .zero .positive) trivial rfl hq

theorem Rounded.value_eq_of_stored (h : Rounded f (value y) u) (hy : Stored f y)
    (fy : y.isFinite = true) : value u = value y := by
  have hle := h.abs_sub_le_of_stored hy fy
  rw [sub_self, abs_zero] at hle
  exact sub_eq_zero.1 (abs_nonpos_iff.1 hle)

theorem Rounded.value_eq_zero (h : Rounded f 0 u) : value u = 0 :=
  h.value_eq_of_stored (y := .zero .positive) trivial rfl

/-- The error is at most a half of the last bit of the mantissa, also where the numbers of the format
lie evenly. -/
theorem Rounded.abs_sub_le_of_multiple (h : Rounded f q u) {k : Int}
    (hq : q = k * 2 ^ f.minExponent) : |value u - q| ≤ |q| / 2 ^ f.mantissaBits := by
  obtain ⟨t, hgrid, n, hn, hhalf, -⟩ := h.near
  rcases hgrid.full with hfull | rfl
  · exact hhalf.trans (half_step_le hfull)
  · rw [hn] at hhalf ⊢
    have hle := abs_sub_le_of_half hhalf k
    rw [← hq, sub_self, abs_zero] at hle
    exact hle.trans (by positivity)

/-- What has few enough digits is rounded to itself. -/
theorem Rounded.value_eq_of_multiple (h : Rounded f q u) {k : Int} (hq : q = k * 2 ^ t)
    (ht : f.minExponent ≤ t) (hk : |k| < 2 ^ f.mantissaBits) : value u = q := by
  obtain ⟨t', hgrid, n, hn, hhalf, -⟩ := h.near
  have hle : t' ≤ t := by
    rcases hgrid.full with hfull | rfl
    · have hlt : |q| < 2 ^ (t + f.mantissaBits : Int) := by
        have hk : |(k : Rat)| < 2 ^ f.mantissaBits := by exact_mod_cast hk
        rw [hq, abs_mul, abs_of_pos (by positivity : (0 : Rat) < 2 ^ t), add_comm,
          zpow_add₀ (by norm_num), zpow_natCast]
        gcongr
      have hbits := mantissaBits_eq f
      have := (zpow_lt_zpow_iff_right₀ (by norm_num : (1 : Rat) < 2)).1 (hfull.trans_lt hlt)
      omega
    · exact ht
  have hfine : q = (k * 2 ^ (t - t').toNat : Int) * 2 ^ t' := by
    rw [hq]
    push_cast
    rw [mul_assoc, ← zpow_natCast, ← zpow_add₀ (by norm_num), Int.toNat_of_nonneg (by omega),
      sub_add_cancel]
  rw [hn] at hhalf ⊢
  have hzero := abs_sub_le_of_half hhalf (k * 2 ^ (t - t').toNat)
  rw [← hfine, sub_self, abs_zero] at hzero
  exact sub_eq_zero.1 (abs_nonpos_iff.1 hzero)

theorem Grid.le_of_grid (h : Grid f q t) (h' : Grid f q t') : t ≤ t' := by
  by_contra hlt
  have hbits := mantissaBits_eq f
  have hleast := h'.least
  have hfull := h.full.resolve_right (by omega)
  have := (zpow_lt_zpow_iff_right₀ (by norm_num : (1 : Rat) < 2)).1 (hfull.trans_lt h'.lt)
  omega

/-- The number on the grid that is nearest to `q`, or the even one of two, is what `q` is rounded to. -/
theorem Rounded.value_eq_of_near (h : Rounded f q u) (hgrid : Grid f q t) {k : Int}
    (hk : |k * 2 ^ t - q| ≤ 2 ^ t / 2) (heven : |k * 2 ^ t - q| = 2 ^ t / 2 → Even k) :
    value u = k * 2 ^ t := by
  obtain ⟨t', hgrid', n, hn, hhalf, heven'⟩ := h.near
  obtain rfl := (hgrid'.le_of_grid hgrid).antisymm (hgrid.le_of_grid hgrid')
  rw [hn] at hhalf heven' ⊢
  have hstep : (0 : Rat) < 2 ^ t' := by positivity
  by_contra hne
  have hone : (1 : Rat) ≤ |(n : Rat) - k| := by
    have hne : n ≠ k := fun h => hne (by rw [h])
    exact_mod_cast Int.one_le_abs (sub_ne_zero.2 hne)
  have happart : |(n : Rat) - k| * 2 ^ t' ≤ |(n : Rat) * 2 ^ t' - q| + |(k : Rat) * 2 ^ t' - q| := by
    rw [← abs_of_pos hstep, ← abs_mul, abs_of_pos hstep, abs_sub_comm ((k : Rat) * 2 ^ t') q]
    refine le_of_eq_of_le (congrArg _ ?_) (abs_add_le _ _)
    ring
  have hmul : 1 * 2 ^ t' ≤ |(n : Rat) - k| * 2 ^ t' := by gcongr
  -- both lie half a step away, on either side, so both are even and next to each other
  have hnk : |(n : Rat) - k| = 1 := by
    refine le_antisymm ?_ hone
    refine le_of_mul_le_mul_right ?_ hstep
    linarith
  have hn2 := heven' (by linarith)
  have hk2 := heven (by linarith)
  have hnk : |n - k| = 1 := by exact_mod_cast hnk
  have hodd : Odd (n - k) := by
    rcases abs_eq (by norm_num) |>.1 hnk with h | h
    · rw [h]
      decide
    · rw [h]
      decide
  exact (Int.not_even_iff_odd.2 hodd) (hn2.sub hk2)

theorem Rounded.value_eq {u' : UnpackedFloat} (h : Rounded f q u) (h' : Rounded f q u') :
    value u = value u' := by
  obtain ⟨t, hgrid, n, hn, hhalf, heven⟩ := h'.near
  rw [hn] at hhalf heven ⊢
  exact h.value_eq_of_near hgrid hhalf heven

/-- Rounding keeps the order. -/
theorem Rounded.mono {q' : Rat} {u' : UnpackedFloat} (h : Rounded f q u) (h' : Rounded f q' u')
    (hle : q ≤ q') : value u ≤ value u' := by
  by_contra hlt
  have hadd := h.add_le h'.stored h'.finite (not_le.1 hlt)
  have hadd' := h'.le_add h.stored h.finite (not_le.1 hlt)
  obtain rfl : q = q' := by linarith
  exact hlt (h.value_eq h').le

/-- With a number of the format its opposite is one. -/
theorem exists_neg (hy : Stored f y) (fy : y.isFinite = true) :
    ∃ z, Stored f z ∧ z.isFinite = true ∧ value z = -value y := by
  cases y with
  | infinity s => cases fy
  | notANumber => cases fy
  | zero s => exact ⟨.zero s, trivial, rfl, neg_zero.symm⟩
  | finite s m e hm =>
    cases s with
    | positive => exact ⟨.finite .negative m e hm, hy, rfl, by rw [value_negative, value_positive]⟩
    | negative =>
      exact ⟨.finite .positive m e hm, hy, rfl, by rw [value_negative, value_positive, neg_neg]⟩

/-- What is between a number of the format and its opposite is rounded to such a number. -/
theorem Rounded.abs_le_of_stored (h : Rounded f q u) (hy : Stored f y) (fy : y.isFinite = true)
    (hle : |q| ≤ value y) : |value u| ≤ value y := by
  obtain ⟨z, hz, fz, hneg⟩ := exists_neg hy fy
  have hbounds := abs_le.1 hle
  refine abs_le.2 ⟨?_, h.mono (rounded_of_stored hy fy) hbounds.2⟩
  rw [← hneg]
  exact h.le_of_stored hz fz (hneg ▸ hbounds.1)

end Binary

/-! ## singles -/

namespace Single

open Binary (Rounded)

variable {x y : Float32}

theorem beq_iff (hx : x.isFinite = true) (hy : y.isFinite = true) :
    (x == y) = true ↔ value x = value y := by
  have h : (x == y) = (x.toModel.unpack.compare y.toModel.unpack == some .eq) := rfl
  rw [h, compare_eq hx hy, beq_iff_eq, Option.some.injEq, compare_eq_iff_eq]

theorem beq_self (hx : x.isFinite = true) : (x == x) = true := (beq_iff hx hx).2 rfl

theorem abs_value_lt (hx : x.isFinite = true) : |value x| < 2 ^ 128 := by
  have hstored : x.toModel.unpack.isFinite = true := hx
  unfold value
  cases h : x.toModel.unpack with
  | infinity s => rw [h] at hstored; cases hstored
  | notANumber => rw [h] at hstored; cases hstored
  | zero s =>
    rw [Binary.value_zero, abs_zero]
    positivity
  | finite s m e hm =>
    obtain ⟨hc, hmax⟩ := Binary.canonical_of_unpack (f := .binary32) (by decide) h
    exact Binary.abs_value_lt hm hc hmax

theorem isFinite_of_pack {u : UnpackedFloat}
    (h : (UnpackedFloat.unpack .binary32 (UnpackedFloat.pack .binary32 u)).isFinite = true) :
    u.isFinite = true := by
  by_contra hinfinite
  rw [Binary.unpack_pack_of_not_finite (Bool.eq_false_iff.2 hinfinite)] at h
  exact hinfinite h

/-- What is finite after it has been packed is what it was before. -/
theorem rounded_of_pack {q : Rat} {u : UnpackedFloat} (hu : Rounded .binary32 q u)
    (h : (UnpackedFloat.unpack .binary32 (UnpackedFloat.pack .binary32 u)).isFinite = true) :
    Rounded .binary32 q (UnpackedFloat.unpack .binary32 (UnpackedFloat.pack .binary32 u)) := by
  rw [Binary.unpack_pack_of_finite (by decide) hu.stored h]
  exact hu

/-- A difference is finite only between finite numbers. -/
theorem isFinite_of_sub (h : (x - y).isFinite = true) : x.isFinite = true ∧ y.isFinite = true := by
  have hsub : (UnpackedFloat.sub .binary32 x.toModel.unpack y.toModel.unpack).isFinite = true :=
    isFinite_of_pack h
  change x.toModel.unpack.isFinite = true ∧ y.toModel.unpack.isFinite = true
  generalize x.toModel.unpack = u at hsub ⊢
  generalize y.toModel.unpack = v at hsub ⊢
  cases u with
  | notANumber => cases hsub
  | infinity s => cases v with
    | infinity t => cases s <;> cases t <;> cases hsub
    | _ => cases hsub
  | _ => cases v with
    | notANumber => cases hsub
    | infinity t => cases hsub
    | _ => exact ⟨rfl, rfl⟩

/-- A difference that is finite is rounded, however great it is. -/
theorem rounded_sub_of_finite (h : (x - y).isFinite = true) :
    Rounded .binary32 (value x - value y) (x - y).toModel.unpack := by
  obtain ⟨hx, hy⟩ := isFinite_of_sub h
  exact rounded_of_pack (Binary.rounded_sub (stored x) (stored y) hx hy) h

/-- The error of a difference is at most a half of its last bit. -/
theorem abs_sub_error_le (h : (x - y).isFinite = true) :
    |value (x - y) - (value x - value y)| ≤ |value x - value y| / 2 ^ 24 := by
  obtain ⟨hx, hy⟩ := isFinite_of_sub h
  obtain ⟨k, hk⟩ := Binary.exists_multiple (stored x) hx
  obtain ⟨l, hl⟩ := Binary.exists_multiple (stored y) hy
  have hmultiple : value x - value y = (k - l : Int) * 2 ^ Format.binary32.minExponent := by
    rw [value, value, hk, hl]
    push_cast
    ring
  exact (rounded_sub_of_finite h).abs_sub_le_of_multiple hmultiple

/-- What is left of `y` when it is taken from `x` and the difference from `x` again. -/
theorem abs_sub_sub_le (h : (x - (x - y)).isFinite = true) :
    |value (x - (x - y)) - value y| ≤ 2 * |value (x - y) - (value x - value y)| := by
  have hy := (isFinite_of_sub (isFinite_of_sub h).2).2
  -- nothing of the format is nearer to the second difference before it is rounded, `y` included
  have hnear := (rounded_sub_of_finite h).abs_sub_stored_le (stored y) hy
  have herror : value y - (value x - value (x - y)) = value (x - y) - (value x - value y) := by ring
  change |value (x - (x - y)) - value y| ≤ 2 * |value y - (value x - value (x - y))| at hnear
  rwa [herror] at hnear

/-- So it is `y` again, but for a part of the difference as small as its last bit. -/
theorem abs_sub_sub_le_div (h : (x - (x - y)).isFinite = true) :
    |value (x - (x - y)) - value y| ≤ |value x - value y| / 2 ^ 23 := by
  have herror := abs_sub_error_le (isFinite_of_sub h).2
  have hhalf : |value x - value y| / 2 ^ 24 = |value x - value y| / 2 ^ 23 / 2 := by ring
  rw [hhalf] at herror
  linarith [abs_sub_sub_le h]

/-- It is `y` exactly if the first difference is exact, since `y` itself is then what is rounded. -/
theorem value_sub_sub (h : (x - (x - y)).isFinite = true)
    (hexact : value (x - y) = value x - value y) : value (x - (x - y)) = value y := by
  have hy := (isFinite_of_sub (isFinite_of_sub h).2).2
  have hrounded := rounded_sub_of_finite h
  rw [hexact, sub_sub_cancel] at hrounded
  exact hrounded.value_eq_of_stored (stored y) hy

/-- Whole numbers that are near each other are taken from one another exactly. -/
theorem value_sub_of_whole (h : (x - y).isFinite = true) {k l : Int} (hx : value x = k)
    (hy : value y = l) (hnear : |k - l| < 2 ^ 24) : value (x - y) = value x - value y := by
  have hwhole : value x - value y = (k - l : Int) * 2 ^ (0 : Int) := by
    rw [hx, hy]
    push_cast
    ring
  exact (rounded_sub_of_finite h).value_eq_of_multiple hwhole (by decide) hnear

/-! ### sums and squares -/

theorem isFinite_of_add (h : (x + y).isFinite = true) : x.isFinite = true ∧ y.isFinite = true := by
  have hadd : (UnpackedFloat.add .binary32 x.toModel.unpack y.toModel.unpack).isFinite = true :=
    isFinite_of_pack h
  change x.toModel.unpack.isFinite = true ∧ y.toModel.unpack.isFinite = true
  generalize x.toModel.unpack = u at hadd ⊢
  generalize y.toModel.unpack = v at hadd ⊢
  cases u with
  | notANumber => cases hadd
  | infinity s => cases v with
    | infinity t => cases s <;> cases t <;> cases hadd
    | _ => cases hadd
  | _ => cases v with
    | notANumber => cases hadd
    | infinity t => cases hadd
    | _ => exact ⟨rfl, rfl⟩

theorem isFinite_of_mul_self (h : (x * x).isFinite = true) : x.isFinite = true := by
  have hmul : (UnpackedFloat.mul .binary32 x.toModel.unpack x.toModel.unpack).isFinite = true :=
    isFinite_of_pack h
  change x.toModel.unpack.isFinite = true
  generalize x.toModel.unpack = u at hmul ⊢
  cases u with
  | notANumber => cases hmul
  | infinity s => cases hmul
  | _ => rfl

theorem rounded_add_of_finite (h : (x + y).isFinite = true) :
    Rounded .binary32 (value x + value y) (x + y).toModel.unpack := by
  obtain ⟨hx, hy⟩ := isFinite_of_add h
  exact rounded_of_pack (Binary.rounded_add (stored x) (stored y) hx hy) h

/-- A square that is finite is rounded. -/
theorem rounded_mul_self_of_finite (h : (x * x).isFinite = true) :
    Rounded .binary32 (value x ^ 2) (x * x).toModel.unpack := by
  have hx := isFinite_of_mul_self h
  rw [sq]
  exact rounded_of_pack (Binary.rounded_mul (stored x) (stored x) hx hx) h

/-- What is missing from `x` to `y`, added to `x`, leads to `y`, but for a part of it as small as its last
bit. -/
theorem abs_add_sub_le (h : (x + (y - x)).isFinite = true) :
    |value (x + (y - x)) - value y| ≤ |value y - value x| / 2 ^ 23 := by
  have hsub := (isFinite_of_add h).2
  have hnear := (rounded_add_of_finite h).abs_sub_stored_le (stored y) (isFinite_of_sub hsub).1
  have herror : value y - (value x + value (y - x)) = -(value (y - x) - (value y - value x)) := by ring
  change |value (x + (y - x)) - value y| ≤ 2 * |value y - (value x + value (y - x))| at hnear
  rw [herror, abs_neg] at hnear
  have hhalf : |value y - value x| / 2 ^ 24 = |value y - value x| / 2 ^ 23 / 2 := by ring
  have hdifference := abs_sub_error_le hsub
  rw [hhalf] at hdifference
  linarith

theorem value_zero_add (h : (x + y).isFinite = true) (hx : value x = 0) : value (x + y) = value y := by
  have hrounded := rounded_add_of_finite h
  rw [hx, zero_add] at hrounded
  exact hrounded.value_eq_of_stored (stored y) (isFinite_of_add h).2

theorem value_add_zero (h : (x + y).isFinite = true) (hy : value y = 0) : value (x + y) = value x := by
  have hrounded := rounded_add_of_finite h
  rw [hy, add_zero] at hrounded
  exact hrounded.value_eq_of_stored (stored x) (isFinite_of_add h).1

theorem value_mul_self_of_zero (h : (x * x).isFinite = true) (hx : value x = 0) :
    value (x * x) = 0 := by
  have hrounded := rounded_mul_self_of_finite h
  rw [hx, sq, mul_zero] at hrounded
  exact hrounded.value_eq_zero

theorem value_sub_of_eq (h : (x - y).isFinite = true) (hxy : value x = value y) :
    value (x - y) = 0 := by
  have hrounded := rounded_sub_of_finite h
  rw [hxy, sub_self] at hrounded
  exact hrounded.value_eq_zero

/-- What is rounded and not greater than a finite number is stored as it is. -/
theorem rounded_pack_of_abs_le {u : UnpackedFloat} (h : Rounded .binary32 q u) (hy : y.isFinite = true)
    (hle : |q| ≤ value y) :
    Rounded .binary32 q (UnpackedFloat.unpack .binary32 (UnpackedFloat.pack .binary32 u)) := by
  have hlimit : |Binary.value u| < 2 ^ 128 :=
    (h.abs_le_of_stored (stored y) hy hle).trans_lt ((le_abs_self _).trans_lt (abs_value_lt hy))
  rw [Binary.unpack_pack (by decide) h.stored h.finite (by exact_mod_cast hlimit)]
  exact h

/-- A difference of finite numbers that are not negative is finite. -/
theorem rounded_sub_of_nonneg (hx : x.isFinite = true) (hy : y.isFinite = true) (hx0 : 0 ≤ value x)
    (hy0 : 0 ≤ value y) : Rounded .binary32 (value x - value y) (x - y).toModel.unpack := by
  have hrounded := Binary.rounded_sub (stored x) (stored y) hx hy
  rcases le_total (value x) (value y) with hle | hle
  · refine rounded_pack_of_abs_le hrounded hy ?_
    rw [abs_of_nonpos (by linarith)]
    linarith
  · refine rounded_pack_of_abs_le hrounded hx ?_
    rw [abs_of_nonneg (by linarith)]
    linarith

theorem sub_ne_notANumber (hx : x.isFinite = true) (hy : y.isFinite = true) :
    (x - y).toModel.unpack ≠ .notANumber := by
  have hrounded := Binary.rounded_sub (stored x) (stored y) hx hy
  refine Binary.unpack_pack_ne_notANumber (by decide) hrounded.stored fun hnan => ?_
  have hfinite := hrounded.finite
  rw [hnan] at hfinite
  cases hfinite

end Single

end Wireboard
