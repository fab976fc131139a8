import Wireboard.Proofs.Number.Packing

/-!
# Arithmetic of finite numbers

Sums, differences, products and quotients are the exact ones, rounded once (`Binary.rounded_add`,
`Binary.rounded_sub`, `Binary.rounded_mul`, `Binary.rounded_div`).  For singles this is so as long as
the exact result is at most `2 ^ 127` (`Single.rounded_add` and so on).

`Single.Within r x` says that `x` is finite and at most `r` in magnitude.  With every operation such a
bound grows by a factor of `Single.ulp` at most (`Within.add` and so on).
-/

namespace Wireboard

open Float.Model (Format UnpackedFloat totalExponent)

namespace Binary

variable {f : Format} {m : Nat} {e t : Int}

variable {x y : UnpackedFloat}

/-- A mantissa with a lower exponent is greater. -/
theorem decreaseExponent_value (s : UnpackedFloat.Sign) {hm : 0 < m} (h : t ≤ e) :
    value (.finite s m e hm) =
      (s.apply (UnpackedFloat.decreaseExponent m e t).1 : Int) * 2 ^ t := by
  have hexp : e = t + ((e - t).toNat : Int) := by omega
  have hpow : (2 : Rat) ^ e = 2 ^ t * 2 ^ (e - t).toNat := by
    conv_lhs => rw [hexp]
    rw [zpow_add₀ (by norm_num), zpow_natCast]
  rw [decreaseExponent_eq]
  cases s with
  | positive =>
    rw [value_positive, hpow]
    simp only [UnpackedFloat.Sign.apply]
    push_cast
    ring
  | negative =>
    rw [value_negative, hpow]
    simp only [UnpackedFloat.Sign.apply]
    push_cast
    ring

theorem rounded_add (hx : Stored f x) (hy : Stored f y) (fx : x.isFinite = true)
    (fy : y.isFinite = true) : Rounded f (value x + value y) (UnpackedFloat.add f x y) := by
  cases x with
  | infinity s => cases fx
  | notANumber => cases fx
  | zero s =>
    rw [value_zero, zero_add]
    cases y with
    | infinity t => cases fy
    | notANumber => cases fy
    | zero t => cases s <;> cases t <;> exact rounded_zero f _
    | finite t n j hn => exact rounded_of_stored hy fy
  | finite s m e hm =>
    cases y with
    | infinity t => cases fy
    | notANumber => cases fy
    | zero t =>
      rw [value_zero, add_zero]
      exact rounded_of_stored hx fx
    | finite t n j hn =>
      rw [decreaseExponent_value s (min_le_left e j), decreaseExponent_value t (min_le_right e j),
        ← add_mul, ← Int.cast_add]
      exact rounded_normalize f _ _ _

theorem rounded_sub (hx : Stored f x) (hy : Stored f y) (fx : x.isFinite = true)
    (fy : y.isFinite = true) : Rounded f (value x - value y) (UnpackedFloat.sub f x y) := by
  cases x with
  | infinity s => cases fx
  | notANumber => cases fx
  | zero s =>
    rw [value_zero, zero_sub]
    cases y with
    | infinity t => cases fy
    | notANumber => cases fy
    | zero t =>
      rw [value_zero, neg_zero]
      cases s <;> cases t <;> exact rounded_zero f _
    | finite t n j hn =>
      have hneg : -value (.finite t n j hn) = value (.finite (-t) n j hn) := by
        cases t with
        | positive => rw [value_positive]; exact (value_negative hn).symm
        | negative => rw [value_negative, neg_neg]; exact (value_positive hn).symm
      rw [hneg]
      have hstored : Stored f (.finite (-t) n j hn) := hy
      exact rounded_of_stored hstored rfl
  | finite s m e hm =>
    cases y with
    | infinity t => cases fy
    | notANumber => cases fy
    | zero t =>
      rw [value_zero, sub_zero]
      exact rounded_of_stored hx fx
    | finite t n j hn =>
      rw [decreaseExponent_value s (min_le_left e j), decreaseExponent_value t (min_le_right e j),
        ← sub_mul, ← Int.cast_sub]
      exact rounded_normalize f _ _ _

theorem signed_mul (s t : UnpackedFloat.Sign) (q r : Rat) :
    signed s q * signed t r = signed (s * t) (q * r) := by
  cases s <;> cases t
  · exact neg_mul_neg q r
  · exact neg_mul q r
  · exact mul_neg q r
  · rfl

theorem signed_div (s t : UnpackedFloat.Sign) (q r : Rat) :
    signed s q / signed t r = signed (s / t) (q / r) := by
  cases s <;> cases t
  · exact neg_div_neg_eq q r
  · exact neg_div r q
  · exact div_neg q
  · rfl

theorem minExponent_neg (f : Format) : f.minExponent ≤ 0 := by
  have hbits := f.hm
  rw [minExponent_eq]
  omega

theorem Canonical.log2_add_one {m : Nat} {e : Int} (h : Canonical f m e) :
    m.log2 + 1 = f.mantissaBits ∨ e = f.minExponent := by
  have hbits := mantissaBits_eq f
  refine h.full.imp_left fun hfull => ?_
  have hm : m ≠ 0 := (Nat.two_pow_pos _).trans_le hfull |>.ne'
  have hge := (Nat.le_log2 hm).2 hfull
  have hlt := (Nat.log2_lt hm).2 h.lt
  omega

theorem rounded_mul (hx : Stored f x) (hy : Stored f y) (fx : x.isFinite = true)
    (fy : y.isFinite = true) : Rounded f (value x * value y) (UnpackedFloat.mul f x y) := by
  cases x with
  | infinity s => cases fx
  | notANumber => cases fx
  | zero s =>
    rw [value_zero, zero_mul]
    cases y with
    | infinity t => cases fy
    | notANumber => cases fy
    | zero t => exact rounded_zero f _
    | finite t n j hn => exact rounded_zero f _
  | finite s m e hm =>
    cases y with
    | infinity t => cases fy
    | notANumber => cases fy
    | zero t =>
      rw [value_zero, mul_zero]
      exact rounded_zero f _
    | finite t n j hn =>
      have hpos : 0 < m * n := Nat.mul_pos hm hn
      have hvalue : (m : Rat) * 2 ^ e * (n * 2 ^ j) = (m * n : Nat) * 2 ^ (e + j) := by
        rw [zpow_add₀ (by norm_num)]
        push_cast
        ring
      have hleft : m.log2 ≤ (m * n).log2 := by
        rw [Nat.le_log2 hpos.ne']
        exact (Nat.log2_self_le hm.ne').trans (Nat.le_mul_of_pos_right m hn)
      have hright : n.log2 ≤ (m * n).log2 := by
        rw [Nat.le_log2 hpos.ne']
        exact (Nat.log2_self_le hn.ne').trans (Nat.le_mul_of_pos_left n hm)
      rw [value_finite, value_finite, signed_mul, hvalue]
      refine rounded_roundWithAccuracy (stands_exact _) ?_ (.inl hpos)
      have hmin := minExponent_neg f
      have hm' := Canonical.log2_add_one hx
      have hn' := Canonical.log2_add_one hy
      rw [targetExponent_eq, totalExponent_eq]
      omega

/-- With enough bits in the numerator, the quotient fills the mantissa. -/
theorem two_pow_le_div {n k b : Nat} (hm : 0 < m) (hn : 0 < n) (h : b + n.log2 + 1 ≤ m.log2 + k) :
    2 ^ b ≤ m * 2 ^ k / n := by
  rw [Nat.le_div_iff_mul_le hn]
  calc 2 ^ b * n ≤ 2 ^ b * 2 ^ (n.log2 + 1) := Nat.mul_le_mul_left _ Nat.lt_log2_self.le
    _ = 2 ^ (b + n.log2 + 1) := by rw [← pow_add, Nat.add_assoc]
    _ ≤ 2 ^ (m.log2 + k) := Nat.pow_le_pow_right (by decide) h
    _ = 2 ^ m.log2 * 2 ^ k := pow_add 2 _ _
    _ ≤ m * 2 ^ k := Nat.mul_le_mul_right _ (Nat.log2_self_le hm.ne')

/-- The exponent of a quotient before it is rounded, low enough for the mantissa to be filled up. -/
def quotientExponent (f : Format) (m : Nat) (e : Int) (n : Nat) (j : Int) : Int :=
  min (e - j) (f.targetExponent (totalExponent m e - totalExponent n j))

theorem rounded_quotient {n : Nat} {j l : Int} {k : Nat} (hm : 0 < m) (hn : 0 < n)
    (hl : quotientExponent f m e n j = l) (hk : e - j - l = k) (s : UnpackedFloat.Sign) :
    Rounded f (signed s (m * 2 ^ e / (n * 2 ^ j))) (UnpackedFloat.roundWithAccuracy f s
      (m * 2 ^ k / n) l (UnpackedFloat.accuracyOfFraction (m * 2 ^ k % n) n)) := by
  have hbits := mantissaBits_eq f
  have hn0 : (n : Rat) ≠ 0 := by exact_mod_cast hn.ne'
  have hvalue : (m : Rat) * 2 ^ e / (n * 2 ^ j) =
      ((m * 2 ^ k / n : Nat) + (m * 2 ^ k % n : Nat) / n : Rat) * 2 ^ l := by
    have hdivmod : (n : Rat) * (m * 2 ^ k / n : Nat) + (m * 2 ^ k % n : Nat) = m * 2 ^ k := by
      exact_mod_cast Nat.div_add_mod (m * 2 ^ k) n
    have hexp : e = l + k + j := by omega
    rw [hexp, zpow_add₀ (by norm_num), zpow_add₀ (by norm_num), zpow_natCast]
    field_simp
    rw [hdivmod]
  have hstands := stands_of_fraction (m * 2 ^ k / n) (Nat.mod_lt (m * 2 ^ k) hn)
  unfold quotientExponent at hl
  rw [targetExponent_eq, totalExponent_eq, totalExponent_eq] at hl
  rw [hvalue]
  rcases le_or_gt l f.minExponent with hmin | hmin
  · refine rounded_roundWithAccuracy hstands ?_ (.inr hmin)
    rw [targetExponent_eq]
    omega
  · have hfull : 2 ^ f.mantissaBitsWithoutImplicit ≤ m * 2 ^ k / n :=
      two_pow_le_div hm hn (by omega)
    have hpos : 0 < m * 2 ^ k / n := (Nat.two_pow_pos _).trans_le hfull
    have hlog := (Nat.le_log2 hpos.ne').2 hfull
    refine rounded_roundWithAccuracy hstands ?_ (.inl hpos)
    rw [targetExponent_eq, totalExponent_eq]
    omega

theorem rounded_div (fx : x.isFinite = true) (fy : y.isFinite = true) (hy : value y ≠ 0) :
    Rounded f (value x / value y) (UnpackedFloat.div f x y) := by
  cases y with
  | infinity t => cases fy
  | notANumber => cases fy
  | zero t => exact absurd rfl hy
  | finite t n j hn =>
    cases x with
    | infinity s => cases fx
    | notANumber => cases fx
    | zero s =>
      rw [value_zero, zero_div]
      exact rounded_zero f _
    | finite s m e hm =>
      obtain ⟨l, hl⟩ : ∃ l, quotientExponent f m e n j = l := ⟨_, rfl⟩
      obtain ⟨k, hk⟩ := Int.eq_ofNat_of_zero_le (a := e - j - l) (by
        unfold quotientExponent at hl
        omega)
      have hshift : (e - j - l).toNat = k := by omega
      have hrounded := rounded_quotient (f := f) hm hn hl hk (s / t)
      rw [value_finite, value_finite, signed_div]
      rw [← hshift, ← Nat.shiftLeft_eq, ← hl] at hrounded
      exact hrounded

end Binary

/-! ## singles -/

namespace Single

open Binary (Rounded)

variable {x y : Float32} {q r : Rat}

/-- What is rounded to the format and at most `2 ^ 127` is stored as it is. -/
theorem rounded_pack {u : UnpackedFloat} (h : Rounded .binary32 q u) (hq : |q| ≤ 2 ^ 127) :
    Rounded .binary32 q (UnpackedFloat.unpack .binary32 (UnpackedFloat.pack .binary32 u)) := by
  have herror : |Binary.value u - q| ≤ |q| / 2 ^ 24 + 2 ^ (-149 : Int) / 2 := h.abs_sub_le
  have hlimit : |Binary.value u| < 2 ^ (128 : Int) := by
    have htriangle := abs_sub_abs_le_abs_sub (Binary.value u) q
    have hsmall : (2 : Rat) ^ (-149 : Int) ≤ 1 := by norm_num
    norm_num at hq ⊢
    linarith
  rw [Binary.unpack_pack (by decide) h.stored h.finite hlimit]
  exact h

theorem rounded_add (hx : x.isFinite = true) (hy : y.isFinite = true)
    (h : |value x + value y| ≤ 2 ^ 127) :
    Rounded .binary32 (value x + value y) (x + y).toModel.unpack :=
  rounded_pack (Binary.rounded_add (stored x) (stored y) hx hy) h

theorem rounded_sub (hx : x.isFinite = true) (hy : y.isFinite = true)
    (h : |value x - value y| ≤ 2 ^ 127) :
    Rounded .binary32 (value x - value y) (x - y).toModel.unpack :=
  rounded_pack (Binary.rounded_sub (stored x) (stored y) hx hy) h

theorem rounded_mul (hx : x.isFinite = true) (hy : y.isFinite = true)
    (h : |value x * value y| ≤ 2 ^ 127) :
    Rounded .binary32 (value x * value y) (x * y).toModel.unpack :=
  rounded_pack (Binary.rounded_mul (stored x) (stored y) hx hy) h

theorem rounded_div (hx : x.isFinite = true) (hy : y.isFinite = true) (hy0 : value y ≠ 0)
    (h : |value x / value y| ≤ 2 ^ 127) :
    Rounded .binary32 (value x / value y) (x / y).toModel.unpack :=
  rounded_pack (Binary.rounded_div hx hy hy0) h

/-- Finite, and at most `r` in magnitude. -/
structure Within (r : Rat) (x : Float32) : Prop where
  finite : x.isFinite = true
  abs_le : |value x| ≤ r

instance (r : Rat) (x : Float32) : Decidable (Within r x) :=
  decidable_of_iff (x.isFinite = true ∧ |value x| ≤ r)
    ⟨fun h => ⟨h.1, h.2⟩, fun h => ⟨h.finite, h.abs_le⟩⟩

theorem Within.mono {r' : Rat} (h : Within r x) (hr : r ≤ r') : Within r' x :=
  ⟨h.finite, h.abs_le.trans hr⟩

/-- The factor by which rounding makes numbers greater at most. -/
def ulp : Rat := 1 + 1 / 2 ^ 23

/-- Bounds that are neither tiny nor huge. -/
def Normal (r : Rat) : Prop := 1 / 2 ^ 126 ≤ r ∧ r ≤ 2 ^ 127

theorem normal_of_one_le (h : 1 ≤ r) (h' : r ≤ 2 ^ 127) : Normal r :=
  ⟨le_trans (by norm_num) h, h'⟩

theorem within_of_rounded (h : Rounded .binary32 q x.toModel.unpack) (hq : |q| ≤ r)
    (hr : Normal r) : Within (ulp * r) x := by
  refine ⟨h.finite, ?_⟩
  have herror : |value x - q| ≤ |q| / 2 ^ 24 + 2 ^ (-149 : Int) / 2 := h.abs_sub_le
  have htriangle := abs_sub_abs_le_abs_sub (value x) q
  have htiny : (2 : Rat) ^ (-149 : Int) / 2 ≤ r / 2 ^ 24 := by
    calc (2 : Rat) ^ (-149 : Int) / 2 = 1 / 2 ^ 126 / 2 ^ 24 := by norm_num
      _ ≤ r / 2 ^ 24 := by gcongr; exact hr.1
  have hstep : |q| / 2 ^ 24 ≤ r / 2 ^ 24 := by gcongr
  have hulp : ulp * r = r + r / 2 ^ 24 + r / 2 ^ 24 := by
    unfold ulp
    ring
  linarith

variable {a b : Rat}

theorem Within.add (hx : Within a x) (hy : Within b y) (h : Normal (a + b)) :
    Within (ulp * (a + b)) (x + y) := by
  have hle : |value x + value y| ≤ a + b :=
    (abs_add_le _ _).trans (add_le_add hx.abs_le hy.abs_le)
  exact within_of_rounded (rounded_add hx.finite hy.finite (hle.trans h.2)) hle h

theorem Within.sub (hx : Within a x) (hy : Within b y) (h : Normal (a + b)) :
    Within (ulp * (a + b)) (x - y) := by
  have hle : |value x - value y| ≤ a + b :=
    (abs_sub _ _).trans (add_le_add hx.abs_le hy.abs_le)
  exact within_of_rounded (rounded_sub hx.finite hy.finite (hle.trans h.2)) hle h

theorem Within.mul (hx : Within a x) (hy : Within b y) (h : Normal (a * b)) :
    Within (ulp * (a * b)) (x * y) := by
  have hle : |value x * value y| ≤ a * b := by
    rw [abs_mul]
    exact mul_le_mul hx.abs_le hy.abs_le (abs_nonneg _) ((abs_nonneg _).trans hx.abs_le)
  exact within_of_rounded (rounded_mul hx.finite hy.finite (hle.trans h.2)) hle h

/-- A quotient by a positive number. -/
theorem Within.div (hx : Within a x) (hy : y.isFinite = true) (hpos : 0 < value y)
    (h : Normal (a / value y)) : Within (ulp * (a / value y)) (x / y) := by
  have hle : |value x / value y| ≤ a / value y := by
    rw [abs_div, abs_of_pos hpos]
    exact div_le_div_of_nonneg_right hx.abs_le hpos.le
  exact within_of_rounded (rounded_div hx.finite hy hpos.ne' (hle.trans h.2)) hle h

end Single

end Wireboard
