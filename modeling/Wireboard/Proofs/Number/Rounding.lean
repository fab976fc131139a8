import Mathlib.Tactic.FieldSimp
import Mathlib.Tactic.Positivity
import Wireboard.Proofs.Number.Comparison

/-!
# Rounding

Every operation computes more bits than its format has and rounds once.

* `Stands em q`: the number `q` begins with the bits of `em`, a mantissa with two more bits.  Shifting
  to the right keeps this (`Stands.shiftRight`), and rounding the mantissa goes to a nearest whole
  number (`Stands.near`);
* `Grid f q t`: around `q` the numbers of the format are the multiples of `2 ^ t`;
* `Rounded f q u`: `u` is a nearest number to `q`, the even one of two, exponents having no upper
  bound.  What `round` and `normalize` give is such (`rounded_round`, `rounded_normalize`), and so is
  what is stored already (`rounded_of_stored`);
* `Rounded.abs_sub_le`: the error is at most half of the last bit.
-/

namespace Wireboard

open Float.Model (Format UnpackedFloat totalExponent)
open Float.Model.UnpackedFloat (Accuracy ExtendedMantissa)

namespace Binary

/-! ## mantissas with two more bits -/

/-- The number that the mantissa and the bit after it make. -/
def low (em : ExtendedMantissa) : Rat := em.mantissa + em.roundBit.toNat / 2

/-- The number `q` begins with these bits; the sticky bit says whether it goes on. -/
def Stands (em : ExtendedMantissa) (q : Rat) : Prop :=
  if em.stickyBit then low em < q ∧ q < low em + 1 / 2 else q = low em

variable {em : ExtendedMantissa} {q : Rat}

theorem stands_exact (m : Nat) : Stands (.ofMantissaAndAccuracy m .exact) m := by
  simp [Stands, low, ExtendedMantissa.ofMantissaAndAccuracy]

theorem Stands.bounds (h : Stands em q) : (em.mantissa : Rat) ≤ q ∧ q < em.mantissa + 1 := by
  obtain ⟨m, r, s⟩ := em
  cases r <;> cases s <;> simp only [Stands, low, Bool.toNat_true, Bool.toNat_false, if_true,
    Bool.false_eq_true, if_false, Nat.cast_one, Nat.cast_zero] at h
  · constructor <;> linarith
  · constructor <;> linarith [h.1, h.2]
  · constructor <;> linarith
  · constructor <;> linarith [h.1, h.2]

/-- Rounding goes to a nearest whole number. -/
theorem Stands.near (h : Stands em q) : |(em.roundedMantissa : Rat) - q| ≤ 1 / 2 := by
  obtain ⟨m, r, s⟩ := em
  rw [abs_le]
  have hmod : ((m % 2 : Nat) : Rat) ≤ 1 := by
    exact_mod_cast Nat.le_of_lt_succ (m.mod_lt Nat.two_pos)
  have hmod' : (0 : Rat) ≤ (m % 2 : Nat) := by positivity
  cases r <;> cases s <;> simp only [Stands, low, Bool.toNat_true, Bool.toNat_false, if_true,
    Bool.false_eq_true, if_false, Nat.cast_one, Nat.cast_zero, ExtendedMantissa.roundedMantissa,
    ExtendedMantissa.accuracy, Accuracy.roundToNearestEven, Nat.cast_add] at h ⊢
  · constructor <;> linarith
  · constructor <;> linarith [h.1, h.2]
  · constructor <;> linarith
  · constructor <;> linarith [h.1, h.2]

/-- In the middle between two whole numbers it goes to the even one. -/
theorem Stands.even (h : Stands em q) (htie : |(em.roundedMantissa : Rat) - q| = 1 / 2) :
    Even em.roundedMantissa := by
  obtain ⟨m, r, s⟩ := em
  have habs := abs_eq_abs.1 (htie.trans (abs_of_pos one_half_pos).symm)
  cases r <;> cases s <;> simp only [Stands, low, Bool.toNat_true, Bool.toNat_false, if_true,
    Bool.false_eq_true, if_false, Nat.cast_one, Nat.cast_zero, ExtendedMantissa.roundedMantissa,
    ExtendedMantissa.accuracy, Accuracy.roundToNearestEven, Nat.cast_add] at h habs ⊢
  · rcases habs with habs | habs <;> linarith
  · rcases habs with habs | habs <;> linarith [h.1, h.2]
  · exact Nat.even_iff.2 (by omega)
  · rcases habs with habs | habs <;> linarith [h.1, h.2]

theorem low_shiftRightOne (em : ExtendedMantissa) :
    low em.shiftRightOne = em.mantissa / 2 := by
  have hdiv : 2 * ((em.mantissa / 2 : Nat) : Rat) + (em.mantissa % 2 : Nat) = em.mantissa := by
    exact_mod_cast em.mantissa.div_add_mod 2
  have hbit : ((em.mantissa % 2 != 0).toNat : Rat) = (em.mantissa % 2 : Nat) := by
    rcases Nat.mod_two_eq_zero_or_one em.mantissa with h | h <;> rw [h] <;> rfl
  simp only [low, ExtendedMantissa.shiftRightOne, hbit]
  linarith

/-- A mantissa that is shifted stands for half of what it stood for. -/
theorem Stands.shiftRightOne (h : Stands em q) : Stands em.shiftRightOne (q / 2) := by
  have hlow := low_shiftRightOne em
  unfold Stands at h ⊢
  rw [hlow]
  obtain ⟨m, r, s⟩ := em
  cases r <;> cases s <;> simp only [low, ExtendedMantissa.shiftRightOne, Bool.toNat_true,
    Bool.toNat_false, Bool.or_true, Bool.or_false, Bool.or_self, if_true, Bool.false_eq_true, if_false,
    Nat.cast_one, Nat.cast_zero] at h ⊢
  · linarith
  · constructor <;> linarith [h.1, h.2]
  · constructor <;> linarith
  · constructor <;> linarith [h.1, h.2]

theorem Stands.shiftRight (h : Stands em q) (n : Nat) : Stands (em >>> n) (q / 2 ^ n) := by
  change Stands (n.repeat ExtendedMantissa.shiftRightOne em) _
  induction n with
  | zero =>
    rw [pow_zero, div_one]
    exact h
  | succ n ih =>
    rw [pow_succ, ← div_div]
    exact ih.shiftRightOne

theorem stands_of_fraction {r d : Nat} (m : Nat) (h : r < d) :
    Stands (.ofMantissaAndAccuracy m (UnpackedFloat.accuracyOfFraction r d)) (m + r / d) := by
  have hd : (0 : Rat) < d := by exact_mod_cast Nat.zero_lt_of_lt h
  have hlt : (r : Rat) / d < 1 := (div_lt_one hd).2 (by exact_mod_cast h)
  unfold UnpackedFloat.accuracyOfFraction
  by_cases hr : r = 0
  · rw [if_pos hr, hr]
    simpa using stands_exact m
  · have hpos : (0 : Rat) < r / d := div_pos (by exact_mod_cast Nat.pos_of_ne_zero hr) hd
    rw [if_neg hr]
    rcases lt_trichotomy (2 * r) d with hc | hc | hc
    · have hhalf : (r : Rat) / d < 1 / 2 := by
        rw [div_lt_div_iff₀ hd two_pos]
        exact_mod_cast (by omega : r * 2 < 1 * d)
      rw [compare_lt_iff_lt.2 hc]
      simp only [Stands, low, ExtendedMantissa.ofMantissaAndAccuracy, Bool.toNat_false, if_true,
        Nat.cast_zero]
      constructor <;> linarith
    · have hhalf : (r : Rat) / d = 1 / 2 := by
        rw [div_eq_div_iff hd.ne' two_ne_zero]
        exact_mod_cast (by omega : r * 2 = 1 * d)
      rw [compare_eq_iff_eq.2 hc, hhalf]
      simp only [Stands, low, ExtendedMantissa.ofMantissaAndAccuracy, Bool.toNat_true,
        Bool.false_eq_true, if_false, Nat.cast_one]
    · have hhalf : (1 : Rat) / 2 < r / d := by
        rw [div_lt_div_iff₀ two_pos hd]
        exact_mod_cast (by omega : 1 * d < r * 2)
      rw [compare_gt_iff_gt.2 hc]
      simp only [Stands, low, ExtendedMantissa.ofMantissaAndAccuracy, Bool.toNat_true, if_true,
        Nat.cast_one]
      constructor <;> linarith

/-! ## the grid of a format -/

/-- Around `q`, the numbers of the format are the multiples of `2 ^ t`. -/
structure Grid (f : Format) (q : Rat) (t : Int) : Prop where
  least : f.minExponent ≤ t
  lt : |q| < 2 ^ (t + f.mantissaBits)
  full : 2 ^ (t + f.mantissaBitsWithoutImplicit) ≤ |q| ∨ t = f.minExponent

/-- `u` is what `q` is rounded to when exponents have no upper bound: a multiple of the step of the
grid at most half a step away, and an even one if it is as far as that. -/
structure Rounded (f : Format) (q : Rat) (u : UnpackedFloat) : Prop where
  finite : u.isFinite = true
  stored : Stored f u
  near : ∃ t, Grid f q t ∧ ∃ n : Int, value u = n * 2 ^ t ∧ |value u - q| ≤ 2 ^ t / 2 ∧
    (|value u - q| = 2 ^ t / 2 → Even n)

variable {f : Format} {s : UnpackedFloat.Sign} {m : Nat} {e t : Int} {a : Accuracy}

theorem targetExponent_eq (f : Format) (l : Int) :
    f.targetExponent l = max (l - f.mantissaBits) f.minExponent := rfl

theorem totalExponent_eq (m : Nat) (e : Int) : totalExponent m e = m.log2 + 1 + e := rfl

/-- Where a number with this whole part has its grid. -/
theorem grid_of_bounds (hq : (m : Rat) ≤ q ∧ q < m + 1) (hm : 0 < m ∨ e ≤ f.minExponent) :
    Grid f (q * 2 ^ e) (f.targetExponent (totalExponent m e)) := by
  have hq0 : 0 ≤ q := (Nat.cast_nonneg m).trans hq.1
  have hpos : (0 : Rat) < 2 ^ e := by positivity
  have habs : |q * 2 ^ e| = q * 2 ^ e := abs_of_nonneg (by positivity)
  have hone : (1 : Rat) ≤ 2 := by norm_num
  have hupper : q * 2 ^ e < 2 ^ ((m.log2 + 1 : Nat) + e : Int) := by
    have hlog : ((m + 1 : Nat) : Rat) ≤ (2 ^ (m.log2 + 1) : Nat) := by
      exact_mod_cast Nat.lt_log2_self
    rw [zpow_add₀ (by norm_num), zpow_natCast]
    push_cast at hlog
    gcongr
    linarith
  rw [targetExponent_eq, totalExponent_eq]
  constructor
  · exact le_max_right _ _
  · rw [habs]
    refine hupper.trans_le (zpow_le_zpow_right₀ hone ?_)
    push_cast
    omega
  · rcases le_or_gt ((m.log2 : Int) + 1 + e - f.mantissaBits) f.minExponent with h | h
    · exact .inr (max_eq_right h)
    · left
      have hbits := mantissaBits_eq f
      have hm' : m ≠ 0 := by
        rintro rfl
        rw [Nat.log2_zero] at h
        omega
      have hlog : ((2 ^ m.log2 : Nat) : Rat) ≤ m := by exact_mod_cast Nat.log2_self_le hm'
      have hexp : max ((m.log2 : Int) + 1 + e - f.mantissaBits) f.minExponent +
          f.mantissaBitsWithoutImplicit = m.log2 + e := by omega
      rw [habs, hexp, zpow_add₀ (by norm_num), zpow_natCast]
      push_cast at hlog
      gcongr
      linarith [hq.1]

/-! ## rounding to the grid -/

theorem shiftToTargetExponent_eq {k : Nat} (a : Accuracy)
    (hk : (f.targetExponent (totalExponent m e) - e).toNat = k) :
    UnpackedFloat.shiftToTargetExponent f m e a =
      (ExtendedMantissa.ofMantissaAndAccuracy m a >>> k, e + k) := by
  rw [← hk]
  rfl

/-- A mantissa that fits is left as it is. -/
theorem shiftToTargetExponent_of_lt {n : Nat} (hn : n < 2 ^ f.mantissaBits)
    (ht : f.minExponent ≤ t) :
    UnpackedFloat.shiftToTargetExponent f n t .exact = (⟨n, false, false⟩, t) := by
  have hlog : n.log2 + 1 ≤ f.mantissaBits := by
    have hbits := mantissaBits_eq f
    by_cases h0 : n = 0
    · rw [h0, Nat.log2_zero]
      omega
    · exact (Nat.log2_lt h0).2 hn
  have hshift : (f.targetExponent (totalExponent n t) - t).toNat = 0 := by
    rw [targetExponent_eq, totalExponent_eq]
    omega
  rw [shiftToTargetExponent_eq .exact hshift, Nat.cast_zero, add_zero]
  rfl

/-- A mantissa that has become one bit too long is halved. -/
theorem shiftToTargetExponent_of_eq (ht : f.minExponent ≤ t) :
    UnpackedFloat.shiftToTargetExponent f (2 ^ f.mantissaBits) t .exact =
      (⟨2 ^ f.mantissaBitsWithoutImplicit, false, false⟩, t + 1) := by
  have hbits := mantissaBits_eq f
  have hhalf : 2 ^ f.mantissaBits / 2 = 2 ^ f.mantissaBitsWithoutImplicit := by
    rw [hbits, Nat.pow_add, Nat.pow_one]
    omega
  have hmod : 2 ^ f.mantissaBits % 2 = 0 := by
    rw [hbits, Nat.pow_add, Nat.pow_one]
    omega
  have hshift : (f.targetExponent (totalExponent (2 ^ f.mantissaBits) t) - t).toNat = 1 := by
    rw [targetExponent_eq, totalExponent_eq, Nat.log2_two_pow]
    omega
  rw [shiftToTargetExponent_eq .exact hshift]
  change ((⟨2 ^ f.mantissaBits / 2, 2 ^ f.mantissaBits % 2 != 0, false⟩ : ExtendedMantissa), _) = _
  rw [hhalf, hmod]
  rfl

/-- With a sign. -/
def signed : UnpackedFloat.Sign → Rat → Rat
  | .positive, q => q
  | .negative, q => -q

theorem abs_signed (s : UnpackedFloat.Sign) (q : Rat) : |signed s q| = |q| := by
  cases s with
  | positive => rfl
  | negative => exact abs_neg q

theorem signed_sub (s : UnpackedFloat.Sign) (q r : Rat) :
    signed s q - signed s r = signed s (q - r) := by
  cases s with
  | positive => rfl
  | negative => simp only [signed]; ring

theorem value_finite (s : UnpackedFloat.Sign) (hm : 0 < m) :
    value (.finite s m e hm) = signed s (m * 2 ^ e) := by
  cases s with
  | positive => exact value_positive hm
  | negative => exact value_negative hm

/-- The number `n * 2 ^ t` with its mantissa shifted as far as it must be. -/
def onGrid (f : Format) (s : UnpackedFloat.Sign) (n : Nat) (t : Int) : UnpackedFloat :=
  let (em, e) := UnpackedFloat.shiftToTargetExponent f n t .exact
  if h : em.mantissa = 0 then .zero s else .finite s em.mantissa e (Nat.pos_of_ne_zero h)

theorem onGrid_of_eq_zero {n : Nat} {em : ExtendedMantissa}
    (h : UnpackedFloat.shiftToTargetExponent f n t .exact = (em, e)) (h0 : em.mantissa = 0) :
    onGrid f s n t = .zero s := by
  unfold onGrid
  rw [h]
  exact dif_pos h0

theorem onGrid_of_ne_zero {n : Nat} {em : ExtendedMantissa}
    (h : UnpackedFloat.shiftToTargetExponent f n t .exact = (em, e)) (h0 : em.mantissa ≠ 0) :
    onGrid f s n t = .finite s em.mantissa e (Nat.pos_of_ne_zero h0) := by
  unfold onGrid
  rw [h]
  exact dif_neg h0

/-- A number that is rounded lies on the grid and has a mantissa that fits. -/
theorem onGrid_spec {n : Nat} (hn : n ≤ 2 ^ f.mantissaBits) (ht : f.minExponent ≤ t)
    (hfull : 2 ^ f.mantissaBitsWithoutImplicit ≤ n ∨ t = f.minExponent) :
    (onGrid f s n t).isFinite = true ∧ Stored f (onGrid f s n t) ∧
      value (onGrid f s n t) = signed s (n * 2 ^ t) := by
  have hbits := mantissaBits_eq f
  rcases hn.lt_or_eq with hlt | rfl
  · by_cases h0 : n = 0
    · rw [onGrid_of_eq_zero (shiftToTargetExponent_of_lt hlt ht) h0, h0, Nat.cast_zero, zero_mul]
      refine ⟨rfl, trivial, ?_⟩
      cases s with
      | positive => rfl
      | negative => exact neg_zero.symm
    · rw [onGrid_of_ne_zero (shiftToTargetExponent_of_lt hlt ht) h0]
      exact ⟨rfl, ⟨hlt, ht, hfull⟩, value_finite s _⟩
  · have hpos : 2 ^ f.mantissaBitsWithoutImplicit ≠ 0 := (Nat.two_pow_pos _).ne'
    rw [onGrid_of_ne_zero (shiftToTargetExponent_of_eq ht) hpos]
    refine ⟨rfl, ⟨?_, ?_, .inl le_rfl⟩, ?_⟩
    · exact Nat.pow_lt_pow_right (by decide) (by omega)
    · omega
    · rw [value_finite, hbits, zpow_add₀ (by norm_num), zpow_one]
      congr 1
      push_cast
      ring

/-- A whole number of steps at most half a step from `q`. -/
theorem rounded_onGrid {n : Nat} (hgrid : Grid f q t) (hq : 0 ≤ q)
    (hn : |(n : Rat) * 2 ^ t - q| ≤ 2 ^ t / 2)
    (heven : |(n : Rat) * 2 ^ t - q| = 2 ^ t / 2 → Even n) :
    Rounded f (signed s q) (onGrid f s n t) := by
  have hstep : (0 : Rat) < 2 ^ t := by positivity
  obtain ⟨hlo, hhi⟩ := abs_le.1 hn
  obtain ⟨hleast, hlt, hfull⟩ := hgrid
  rw [abs_of_nonneg hq] at hlt hfull
  have hle : n ≤ 2 ^ f.mantissaBits := by
    rw [zpow_add₀ (by norm_num), zpow_natCast] at hlt
    have hlt' : (n : Rat) < 2 ^ f.mantissaBits + 1 := by
      have : (n : Rat) * 2 ^ t < (2 ^ f.mantissaBits + 1) * 2 ^ t := by linarith
      exact lt_of_mul_lt_mul_right this hstep.le
    have hnat : n < 2 ^ f.mantissaBits + 1 := by exact_mod_cast hlt'
    omega
  have hge : 2 ^ f.mantissaBitsWithoutImplicit ≤ n ∨ t = f.minExponent := by
    refine hfull.imp_left fun hfull => ?_
    rw [zpow_add₀ (by norm_num), zpow_natCast] at hfull
    have hlt' : (2 : Rat) ^ f.mantissaBitsWithoutImplicit < n + 1 := by
      have : (2 : Rat) ^ f.mantissaBitsWithoutImplicit * 2 ^ t < (n + 1) * 2 ^ t := by linarith
      exact lt_of_mul_lt_mul_right this hstep.le
    have hnat : 2 ^ f.mantissaBitsWithoutImplicit < n + 1 := by exact_mod_cast hlt'
    omega
  obtain ⟨hfinite, hstored, hvalue⟩ := onGrid_spec (s := s) hle hleast hge
  refine ⟨hfinite, hstored, t, ⟨hleast, ?_, ?_⟩, ?_⟩
  · rwa [abs_signed, abs_of_nonneg hq]
  · rwa [abs_signed, abs_of_nonneg hq]
  · refine ⟨s.apply n, ?_, ?_, ?_⟩
    · rw [hvalue]
      cases s <;> simp [signed, UnpackedFloat.Sign.apply]
    · rw [hvalue, signed_sub, abs_signed]
      exact hn
    · rw [hvalue, signed_sub, abs_signed]
      intro htie
      have hint : Even (n : Int) := (Int.even_coe_nat n).2 (heven htie)
      cases s with
      | positive => exact hint
      | negative => exact hint.neg

/-- Rounding what stands in a mantissa, if its exponent is not above that of the grid. -/
theorem rounded_roundWithAccuracy (hq : Stands (.ofMantissaAndAccuracy m a) q)
    (he : e ≤ f.targetExponent (totalExponent m e)) (hm : 0 < m ∨ e ≤ f.minExponent) :
    Rounded f (signed s (q * 2 ^ e)) (UnpackedFloat.roundWithAccuracy f s m e a) := by
  have hbounds := hq.bounds
  have hmantissa : (ExtendedMantissa.ofMantissaAndAccuracy m a).mantissa = m := by
    cases a with
    | exact => rfl
    | inexact o => cases o <;> rfl
  rw [hmantissa] at hbounds
  have hgrid := grid_of_bounds hbounds hm
  have hq0 : 0 ≤ q := (Nat.cast_nonneg m).trans hbounds.1
  obtain ⟨k, hk⟩ := Int.eq_ofNat_of_zero_le (sub_nonneg.2 he)
  have ht : f.targetExponent (totalExponent m e) = e + k := by omega
  have hshift : (f.targetExponent (totalExponent m e) - e).toNat = k := by omega
  change Rounded f _ (onGrid f s
    (UnpackedFloat.shiftToTargetExponent f m e a).1.roundedMantissa
    (UnpackedFloat.shiftToTargetExponent f m e a).2)
  rw [ht] at hgrid
  rw [shiftToTargetExponent_eq a hshift]
  have hshifted := hq.shiftRight k
  have hstep : (0 : Rat) < 2 ^ (e + k : Int) := by positivity
  have hscale : q * 2 ^ e = q / 2 ^ k * 2 ^ (e + k : Int) := by
    rw [zpow_add₀ (by norm_num), zpow_natCast]
    field_simp
  refine rounded_onGrid hgrid (by positivity) ?_ fun htie => hshifted.even ?_
  · rw [hscale, ← sub_mul, abs_mul, abs_of_pos hstep]
    linarith [mul_le_mul_of_nonneg_right hshifted.near hstep.le]
  · rw [hscale, ← sub_mul, abs_mul, abs_of_pos hstep] at htie
    exact mul_right_cancel₀ hstep.ne' (htie.trans (by ring))

/-- Taking the exponent down and the mantissa up does not change the number. -/
theorem decreaseExponent_eq (m : Nat) (e t : Int) :
    UnpackedFloat.decreaseExponent m e t = (m * 2 ^ (e - t).toNat, e - (e - t).toNat) := by
  rw [← Nat.shiftLeft_eq]
  rfl

theorem log2_mul_two_pow (hm : 0 < m) (k : Nat) : (m * 2 ^ k).log2 = m.log2 + k := by
  induction k with
  | zero => rw [pow_zero, Nat.mul_one, Nat.add_zero]
  | succ k ih =>
    have hpos : m * 2 ^ k ≠ 0 := (Nat.mul_pos hm (Nat.two_pow_pos k)).ne'
    rw [pow_succ', Nat.mul_left_comm, Nat.log2_two_mul hpos, ih, Nat.add_assoc]

theorem rounded_round (hm : 0 < m) :
    Rounded f (signed s (m * 2 ^ e)) (UnpackedFloat.round f s m e) := by
  obtain ⟨k, hk⟩ : ∃ k, (e - f.targetExponent (totalExponent m e)).toNat = k := ⟨_, rfl⟩
  have hm' : 0 < m * 2 ^ k := Nat.mul_pos hm (Nat.two_pow_pos k)
  have htotal : totalExponent (m * 2 ^ k) (e - k) = totalExponent m e := by
    rw [totalExponent_eq, totalExponent_eq, log2_mul_two_pow hm]
    push_cast
    ring
  have hvalue : (m : Rat) * 2 ^ e = (m * 2 ^ k : Nat) * 2 ^ (e - k : Int) := by
    rw [zpow_sub₀ (by norm_num), zpow_natCast]
    push_cast
    field_simp
  change Rounded f _ (UnpackedFloat.roundWithAccuracy f s
    (UnpackedFloat.decreaseExponent m e (f.targetExponent (totalExponent m e))).1
    (UnpackedFloat.decreaseExponent m e (f.targetExponent (totalExponent m e))).2 .exact)
  rw [decreaseExponent_eq, hk, hvalue]
  refine rounded_roundWithAccuracy (stands_exact _) ?_ (.inl hm')
  rw [htotal]
  omega

theorem grid_zero (f : Format) : Grid f 0 f.minExponent :=
  ⟨le_rfl, by rw [abs_zero]; positivity, .inr rfl⟩

theorem value_zero (s : UnpackedFloat.Sign) : value (.zero s) = 0 := rfl

theorem rounded_zero (f : Format) (s : UnpackedFloat.Sign) : Rounded f 0 (.zero s) := by
  refine ⟨rfl, trivial, _, grid_zero f, 0, ?_, ?_, fun _ => Even.zero⟩
  · rw [value_zero, Int.cast_zero, zero_mul]
  · rw [value_zero, sub_self, abs_zero]
    positivity

theorem rounded_normalize (f : Format) (n e : Int) (z : UnpackedFloat.Sign) :
    Rounded f (n * 2 ^ e) (UnpackedFloat.normalize f n e z) := by
  unfold UnpackedFloat.normalize
  rcases lt_trichotomy n 0 with h | rfl | h
  · have hpos : 0 < (-n).toNat := by omega
    have hcast : (n : Rat) = -((-n).toNat : Nat) := by
      have hint : n = -((-n).toNat : Int) := by omega
      exact_mod_cast hint
    have hvalue : (n : Rat) * 2 ^ e = signed .negative ((-n).toNat * 2 ^ e) := by
      rw [signed, ← neg_mul, ← hcast]
    rw [compare_lt_iff_lt.2 h, hvalue]
    exact rounded_round hpos
  · rw [compare_eq_iff_eq.2 rfl, Int.cast_zero, zero_mul]
    exact rounded_zero f z
  · have hpos : 0 < n.toNat := by omega
    have hcast : (n : Rat) = (n.toNat : Nat) := by
      have hint : n = (n.toNat : Int) := by omega
      exact_mod_cast hint
    have hvalue : (n : Rat) * 2 ^ e = signed .positive (n.toNat * 2 ^ e) := by
      rw [signed, ← hcast]
    rw [compare_gt_iff_gt.2 h, hvalue]
    exact rounded_round hpos

/-- What is stored in the format need not be rounded. -/
theorem rounded_of_stored {x : UnpackedFloat} (hx : Stored f x) (fx : x.isFinite = true) :
    Rounded f (value x) x := by
  refine ⟨fx, hx, ?_⟩
  cases x with
  | infinity s => cases fx
  | notANumber => cases fx
  | zero s => exact (rounded_zero f s).near
  | finite s m e hm =>
    obtain ⟨hlt, hleast, hfull⟩ := hx
    have hpos : (0 : Rat) < 2 ^ e := by positivity
    have habs : |value (.finite s m e hm)| = m * 2 ^ e := by
      rw [value_finite, abs_signed, abs_of_nonneg (by positivity)]
    refine ⟨e, ⟨hleast, ?_, hfull.imp_left fun hfull => ?_⟩, s.apply m, rfl, ?_, fun htie => ?_⟩
    · have hlt' : (m : Rat) < 2 ^ f.mantissaBits := by exact_mod_cast hlt
      rw [habs, zpow_add₀ (by norm_num), zpow_natCast, mul_comm]
      gcongr
    · have hfull' : (2 : Rat) ^ f.mantissaBitsWithoutImplicit ≤ m := by exact_mod_cast hfull
      rw [habs, zpow_add₀ (by norm_num), zpow_natCast, mul_comm]
      gcongr
    · rw [sub_self, abs_zero]
      positivity
    · rw [sub_self, abs_zero] at htie
      linarith

/-! ## the error -/

/-- Where the mantissa is filled up, half a step is half of its last bit. -/
theorem half_step_le (hfull : 2 ^ (t + f.mantissaBitsWithoutImplicit) ≤ |q|) :
    (2 : Rat) ^ t / 2 ≤ |q| / 2 ^ f.mantissaBits := by
  have hstep : (2 : Rat) ^ t / 2 =
      2 ^ (t + f.mantissaBitsWithoutImplicit) / 2 ^ f.mantissaBits := by
    rw [mantissaBits_eq, zpow_add₀ (by norm_num), zpow_natCast, pow_add]
    field_simp
  rw [hstep]
  gcongr

/-- What is not too small is rounded to a filled up mantissa. -/
theorem Rounded.abs_sub_le_of_full {u : UnpackedFloat} (h : Rounded f q u)
    (hfull : 2 ^ (f.minExponent + f.mantissaBitsWithoutImplicit) ≤ |q|) :
    |value u - q| ≤ |q| / 2 ^ f.mantissaBits := by
  obtain ⟨t, hgrid, -, -, hnear, -⟩ := h.near
  rcases hgrid.full with hfull' | rfl
  · exact hnear.trans (half_step_le hfull')
  · exact hnear.trans (half_step_le hfull)

/-- The error is a half of the last bit of the mantissa. -/
theorem Rounded.abs_sub_le {u : UnpackedFloat} (h : Rounded f q u) :
    |value u - q| ≤ |q| / 2 ^ f.mantissaBits + 2 ^ f.minExponent / 2 := by
  obtain ⟨t, hgrid, -, -, hnear, -⟩ := h.near
  refine hnear.trans ?_
  have hleast : (0 : Rat) < 2 ^ f.minExponent := by positivity
  rcases hgrid.full with hfull | rfl
  · linarith [half_step_le hfull]
  · have hle : 0 ≤ |q| / 2 ^ f.mantissaBits := by positivity
    linarith

end Binary

end Wireboard
