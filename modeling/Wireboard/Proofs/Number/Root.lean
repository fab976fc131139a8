import Wireboard.Proofs.Number.Nearest

/-!
# Square roots

The root of a mantissa is taken in whole numbers, with a remainder that says how it goes on; it is
rounded once.

* `StandsRoot em n`: the square root of `n` begins with the bits of `em`.  The root itself need not be
  rational, but rational numbers on either side of it begin with the same bits
  (`StandsRoot.exists_lt`, `StandsRoot.exists_gt`);
* `NearestRoot f q u`: no number of the format lies nearer to the root of `q` than `u`, said with
  squares.  What `UnpackedFloat.sqrt` gives is such (`nearestRoot_sqrt`);
* `Single.le_mul_self_of_sqrt_lt`: a single whose root is below `r` is at most the rounded square of `r`,
  whatever the two are;
* `Single.Squarable.sqrt_cases`: a single that is not above the rounded square of `r` has a root that is
  not above `r`, and likewise from below, unless `r` is so small that its square loses digits or so great
  that it overflows.
-/

namespace Wireboard

open Float.Model (Format UnpackedFloat totalExponent)
open Float.Model.UnpackedFloat (Accuracy ExtendedMantissa)

namespace Binary

/-! ## the bits of a root -/

/-- The square root of `n` begins with these bits. -/
def StandsRoot (em : ExtendedMantissa) (n : Rat) : Prop :=
  if em.stickyBit then low em ^ 2 < n ∧ n < (low em + 1 / 2) ^ 2 else n = low em ^ 2

section bits

variable {em : ExtendedMantissa} {n c : Rat}

theorem low_nonneg (em : ExtendedMantissa) : 0 ≤ low em := by
  unfold low
  positivity

theorem stands_low (h : em.stickyBit ≠ true) : Stands em (low em) := by
  unfold Stands
  rw [if_neg h]

theorem stands_of_between {q : Rat} (h : em.stickyBit = true) (hq : low em < q)
    (hq' : q < low em + 1 / 2) : Stands em q := by
  unfold Stands
  rw [if_pos h]
  exact ⟨hq, hq'⟩

theorem StandsRoot.exists_lt (h : StandsRoot em n) (hc : 0 ≤ c) (hlt : n < c ^ 2) :
    ∃ q, Stands em q ∧ q < c := by
  unfold StandsRoot at h
  split at h
  · next hsticky =>
    have hlow : low em < c := lt_of_pow_lt_pow_left₀ 2 hc (h.1.trans hlt)
    obtain ⟨q, hq, hq'⟩ := exists_between (lt_min hlow (lt_add_of_pos_right (low em) one_half_pos))
    have hstands := stands_of_between hsticky hq (hq'.trans_le (min_le_right _ _))
    exact ⟨q, hstands, hq'.trans_le (min_le_left _ _)⟩
  · next hsticky =>
    exact ⟨low em, stands_low hsticky, lt_of_pow_lt_pow_left₀ 2 hc (h ▸ hlt)⟩

theorem StandsRoot.exists_gt (h : StandsRoot em n) (hlt : c ^ 2 < n) :
    ∃ q, Stands em q ∧ c < q := by
  have hnonneg := low_nonneg em
  unfold StandsRoot at h
  split at h
  · next hsticky =>
    have hlow : c < low em + 1 / 2 := lt_of_pow_lt_pow_left₀ 2 (by positivity) (hlt.trans h.2)
    obtain ⟨q, hq, hq'⟩ := exists_between (max_lt hlow (lt_add_of_pos_right (low em) one_half_pos))
    have hstands := stands_of_between hsticky ((le_max_right _ _).trans_lt hq) hq'
    exact ⟨q, hstands, (le_max_left _ _).trans_lt hq⟩
  · next hsticky =>
    exact ⟨low em, stands_low hsticky, lt_of_pow_lt_pow_left₀ 2 hnonneg (h ▸ hlt)⟩

end bits

/-- How the root of `m` goes on after its whole part. -/
def accuracyOfRoot (m : Nat) : Accuracy :=
  if m - m.sqrt * m.sqrt = 0 then .exact
  else .inexact (if m - m.sqrt * m.sqrt ≤ m.sqrt then .lt else .gt)

theorem standsRoot_sqrt (m : Nat) :
    StandsRoot (.ofMantissaAndAccuracy m.sqrt (accuracyOfRoot m)) m := by
  have hle := Nat.sqrt_le m
  have hlt := Nat.lt_succ_sqrt m
  rw [Nat.succ_mul_succ] at hlt
  unfold accuracyOfRoot
  generalize m.sqrt = r at hle hlt ⊢
  by_cases hexact : m - r * r = 0
  · have hm : (m : Rat) = r * r := by exact_mod_cast (by omega : m = r * r)
    rw [if_pos hexact, hm]
    simp [StandsRoot, low, ExtendedMantissa.ofMantissaAndAccuracy, sq]
  · have hgt : (r * r : Rat) + 1 ≤ m := by exact_mod_cast (by omega : r * r + 1 ≤ m)
    rw [if_neg hexact]
    by_cases hhalf : m - r * r ≤ r
    · have hle' : (m : Rat) ≤ r * r + r := by exact_mod_cast (by omega : m ≤ r * r + r)
      rw [if_pos hhalf]
      simp only [StandsRoot, low, ExtendedMantissa.ofMantissaAndAccuracy, Bool.toNat_false, if_true,
        Nat.cast_zero]
      constructor <;> linarith
    · have hge : (r * r : Rat) + r + 1 ≤ m := by exact_mod_cast (by omega : r * r + r + 1 ≤ m)
      have hlt' : (m : Rat) + 1 ≤ r * r + r + r + 1 := by
        exact_mod_cast (by omega : m + 1 ≤ r * r + r + r + 1)
      rw [if_neg hhalf]
      simp only [StandsRoot, low, ExtendedMantissa.ofMantissaAndAccuracy, Bool.toNat_true, if_true,
        Nat.cast_one]
      constructor <;> linarith

/-! ## nearest roots -/

variable {f : Format} {q : Rat} {u y : UnpackedFloat}

/-- No number of the format lies nearer to the root of `q` than `u`. -/
structure NearestRoot (f : Format) (q : Rat) (u : UnpackedFloat) : Prop where
  finite : u.isFinite = true
  stored : Stored f u
  nonneg : 0 ≤ value u
  below : ∀ y, Stored f y → y.isFinite = true → 0 ≤ value y → value y < value u →
    (value y + value u) ^ 2 ≤ 4 * q
  above : ∀ y, Stored f y → y.isFinite = true → value u < value y →
    4 * q ≤ (value u + value y) ^ 2

theorem nearestRoot_zero (f : Format) (s : UnpackedFloat.Sign) : NearestRoot f 0 (.zero s) where
  finite := rfl
  stored := trivial
  nonneg := le_rfl
  below _ _ _ h0 hlt := absurd hlt (not_lt.2 h0)
  above _ _ _ _ := by
    rw [mul_zero]
    exact sq_nonneg _

/-- Rounding what begins with the bits of a root. -/
theorem nearestRoot_roundWithAccuracy {n r : Nat} {t : Int} {a : Accuracy}
    (h : StandsRoot (.ofMantissaAndAccuracy r a) n) (ht : t ≤ f.targetExponent (totalExponent r t))
    (hr : 0 < r ∨ t ≤ f.minExponent) :
    NearestRoot f (n * (2 ^ t) ^ 2) (UnpackedFloat.roundWithAccuracy f .positive r t a) := by
  have hstep : (0 : Rat) < 2 ^ t := by positivity
  have hrounded : ∀ q : Rat, Stands (.ofMantissaAndAccuracy r a) q →
      Rounded f (q * 2 ^ t) (UnpackedFloat.roundWithAccuracy f .positive r t a) :=
    fun _ hq => rounded_roundWithAccuracy (s := .positive) hq ht hr
  generalize UnpackedFloat.roundWithAccuracy f .positive r t a = u at hrounded
  obtain ⟨q, hq, -⟩ := h.exists_lt (c := n + 1) (by positivity) (by
    have : (0 : Rat) ≤ n := by positivity
    linarith [sq_nonneg (n : Rat)])
  have hq0 : 0 ≤ q := (Nat.cast_nonneg _).trans hq.bounds.1
  have hu := hrounded q hq
  have hu0 := hu.nonneg (by positivity)
  refine ⟨hu.finite, hu.stored, hu0, fun y hy fy hy0 hlt => ?_, fun y hy fy hlt => ?_⟩
  · obtain ⟨c, hc⟩ : ∃ c, value y + value u = 2 * (c * 2 ^ t) :=
      ⟨(value y + value u) / 2 / 2 ^ t, by field_simp⟩
    have hc0 : 0 ≤ c := by
      refine nonneg_of_mul_nonneg_left ?_ hstep
      linarith
    by_contra hgt
    rw [hc] at hgt
    have hsq : (n : Rat) < c ^ 2 := by
      refine lt_of_mul_lt_mul_right (a := (2 ^ t) ^ 2) ?_ (by positivity)
      linarith
    obtain ⟨q, hq, hqc⟩ := h.exists_lt hc0 hsq
    have hle := (hrounded q hq).add_le hy fy hlt
    rw [hc] at hle
    linarith [mul_lt_mul_of_pos_right hqc hstep]
  · obtain ⟨c, hc⟩ : ∃ c, value u + value y = 2 * (c * 2 ^ t) :=
      ⟨(value u + value y) / 2 / 2 ^ t, by field_simp⟩
    by_contra hgt
    rw [hc] at hgt
    have hsq : c ^ 2 < (n : Rat) := by
      refine lt_of_mul_lt_mul_right (a := (2 ^ t) ^ 2) ?_ (by positivity)
      linarith
    obtain ⟨q, hq, hqc⟩ := h.exists_gt hsq
    have hle := (hrounded q hq).le_add hy fy hlt
    rw [hc] at hle
    linarith [mul_lt_mul_of_pos_right hqc hstep]

/-- The exponent at which the root of a number is taken, low enough for the mantissa to be filled up. -/
def rootExponent (f : Format) (m : Nat) (e : Int) : Int :=
  min (e / 2) (f.targetExponent ((totalExponent m e + 1) / 2))

theorem nearestRoot_root {m k : Nat} {e t : Int} (hm : 0 < m) (ht : rootExponent f m e = t)
    (hk : e - 2 * t = k) :
    NearestRoot f (m * 2 ^ e) (UnpackedFloat.roundWithAccuracy f .positive (m * 2 ^ k).sqrt t
      (accuracyOfRoot (m * 2 ^ k))) := by
  have hbits := mantissaBits_eq f
  have hvalue : (m : Rat) * 2 ^ e = (m * 2 ^ k : Nat) * (2 ^ t) ^ 2 := by
    have hexp : e = k + (t + t) := by omega
    rw [hexp, zpow_add₀ (by norm_num), zpow_add₀ (by norm_num), zpow_natCast]
    push_cast
    ring
  have hpos : 0 < m * 2 ^ k := Nat.mul_pos hm (Nat.two_pow_pos k)
  have hroot : 0 < (m * 2 ^ k).sqrt := Nat.sqrt_pos.2 hpos
  have hstands := standsRoot_sqrt (m * 2 ^ k)
  unfold rootExponent at ht
  rw [targetExponent_eq, totalExponent_eq] at ht
  rw [hvalue]
  refine nearestRoot_roundWithAccuracy hstands ?_ (.inl hroot)
  rw [targetExponent_eq, totalExponent_eq]
  rcases le_or_gt t f.minExponent with hmin | hmin
  · omega
  · -- the mantissa has twice as many bits as the root has to have
    have hfull : 2 ^ f.mantissaBitsWithoutImplicit ≤ (m * 2 ^ k).sqrt := by
      rw [Nat.le_sqrt, ← pow_add, ← Nat.le_log2 hpos.ne', log2_mul_two_pow hm]
      omega
    have hlog := (Nat.le_log2 hroot.ne').2 hfull
    omega

theorem nearestRoot_sqrt {x : UnpackedFloat} (fx : x.isFinite = true) (h0 : 0 ≤ value x) :
    NearestRoot f (value x) (UnpackedFloat.sqrt f x) := by
  cases x with
  | infinity s => cases fx
  | notANumber => cases fx
  | zero s => exact nearestRoot_zero f s
  | finite s m e hm =>
    cases s with
    | negative => exact absurd h0 (not_le.2 (value_negative_neg hm))
    | positive =>
      obtain ⟨t, ht⟩ : ∃ t, rootExponent f m e = t := ⟨_, rfl⟩
      obtain ⟨k, hk⟩ := Int.eq_ofNat_of_zero_le (a := e - 2 * t) (by
        unfold rootExponent at ht
        omega)
      have hshift : (e - 2 * t).toNat = k := by omega
      have hroot := nearestRoot_root (f := f) hm ht hk
      rw [value_positive]
      rw [← hshift, ← Nat.shiftLeft_eq, ← ht] at hroot
      exact hroot

namespace NearestRoot

variable {q' : Rat} {v : UnpackedFloat}

theorem le_of_le_sq (h : NearestRoot f q u) (hy : Stored f y) (fy : y.isFinite = true)
    (h0 : 0 ≤ value y) (hle : q ≤ value y ^ 2) : value u ≤ value y := by
  by_contra hlt
  have hbelow := h.below y hy fy h0 (not_le.1 hlt)
  have hsq : (value y + value u) ^ 2 ≤ (2 * value y) ^ 2 := by linarith
  have hle := pow_le_pow_iff_left₀ (add_nonneg h0 h.nonneg) (by positivity) two_ne_zero |>.1 hsq
  linarith

theorem lt_sq_of_lt (h : NearestRoot f q u) (hy : Stored f y) (fy : y.isFinite = true)
    (hlt : value u < value y) : q < value y ^ 2 := by
  have habove := h.above y hy fy hlt
  have hsq : (value u + value y) ^ 2 < (2 * value y) ^ 2 := by
    refine pow_lt_pow_left₀ ?_ (add_nonneg h.nonneg (h.nonneg.trans hlt.le)) two_ne_zero
    linarith
  linarith

/-- Of two numbers, the greater one has the greater root. -/
theorem le_of_lt (h : NearestRoot f q u) (h' : NearestRoot f q' v) (hlt : q < q') :
    value u ≤ value v := by
  by_contra hgt
  have hbelow := h.below v h'.stored h'.finite h'.nonneg (not_le.1 hgt)
  have habove := h'.above u h.stored h.finite (not_le.1 hgt)
  linarith

end NearestRoot

/-! ## roots of squares -/

section square

variable {m : Nat} {e : Int} {w : UnpackedFloat}

/-- A number whose square fills a mantissa fills it itself. -/
theorem full_of_full_sq (hf : 2 ≤ f.exponentBits) (hc : Canonical f m e)
    (hfull : 2 ^ (f.minExponent + f.mantissaBitsWithoutImplicit) ≤ ((m : Rat) * 2 ^ e) ^ 2) :
    2 ^ f.mantissaBitsWithoutImplicit ≤ m := by
  by_contra hsmall
  obtain rfl := hc.full.resolve_left hsmall
  have hsmall : (m : Rat) < 2 ^ f.mantissaBitsWithoutImplicit := by exact_mod_cast not_le.1 hsmall
  have hlt : (m : Rat) * 2 ^ f.minExponent <
      2 ^ (f.minExponent + f.mantissaBitsWithoutImplicit) := by
    rw [add_comm, zpow_add₀ (by norm_num), zpow_natCast]
    gcongr
  have hone : (2 : Rat) ^ (f.minExponent + f.mantissaBitsWithoutImplicit) ≤ 1 := by
    have hbias : 1 ≤ f.exponentBias := by
      have := Nat.pow_le_pow_right (n := 2) Nat.two_pos (Nat.sub_le_sub_right hf 1)
      unfold Format.exponentBias
      omega
    refine zpow_le_one_of_nonpos₀ (by norm_num) ?_
    rw [minExponent_eq]
    omega
  have hpos : (0 : Rat) ≤ m * 2 ^ f.minExponent := by positivity
  nlinarith

/-- The next number is too far away for the error of the square. -/
theorem NearestRoot.le_of_rounded_sq (h : NearestRoot f q u) (hq : q ≤ value w)
    (hw : Rounded f ((m * 2 ^ e) ^ 2) w) (hm : 0 < m) (hc : Canonical f m e)
    (hfull : 2 ^ (f.minExponent + f.mantissaBitsWithoutImplicit) ≤ ((m : Rat) * 2 ^ e) ^ 2) :
    value u ≤ m * 2 ^ e := by
  by_contra hgt
  have hlt := not_le.1 hgt
  have herror := (abs_le.1 (hw.abs_sub_le_of_full (hfull.trans (le_abs_self _)))).2
  have hnext := succ_le_of_lt hc h.stored h.finite hlt
  have hbelow := h.below (.finite .positive m e hm) hc rfl (value_positive_pos hm).le
  rw [value_positive] at hbelow
  have hbelow := hbelow hlt
  have hbits : (m : Rat) ≤ 2 ^ f.mantissaBits := by exact_mod_cast hc.lt.le
  have hstep : (0 : Rat) < 2 ^ e := by positivity
  rw [abs_of_nonneg (sq_nonneg _)] at herror
  generalize (2 : Rat) ^ e = step at *
  have hsmall : ((m : Rat) * step) ^ 2 / 2 ^ f.mantissaBits ≤ m * step * step := by
    rw [div_le_iff₀ (by positivity)]
    calc ((m : Rat) * step) ^ 2 = m * step * step * m := by ring
      _ ≤ m * step * step * 2 ^ f.mantissaBits := by gcongr
  have hsq : (2 * (m * step) + step) ^ 2 ≤ (m * step + value u) ^ 2 := by
    refine pow_le_pow_left₀ (by positivity) ?_ 2
    linarith
  linarith [mul_pos hstep hstep]

/-- The square of a power of two is exact. -/
theorem rounded_sq_of_two_pow {k : Nat} (hw : Rounded f (((2 ^ k : Nat) * 2 ^ e) ^ 2) w)
    (hfull : 2 ^ (f.minExponent + f.mantissaBitsWithoutImplicit) ≤
      (((2 ^ k : Nat) : Rat) * 2 ^ e) ^ 2) :
    value w = ((2 ^ k : Nat) * 2 ^ e) ^ 2 := by
  have hpow : (((2 ^ k : Nat) : Rat) * 2 ^ e) ^ 2 = (1 : Int) * 2 ^ ((k + e) + (k + e) : Int) := by
    rw [zpow_add₀ (by norm_num), zpow_add₀ (by norm_num), zpow_natCast]
    push_cast
    ring
  rw [hpow] at hw hfull ⊢
  rw [Int.cast_one, one_mul, zpow_le_zpow_iff_right₀ (by norm_num)] at hfull
  refine hw.value_eq_of_multiple rfl (by omega) ?_
  rw [abs_one]
  exact one_lt_pow₀ (by norm_num) (mantissaBits_eq f ▸ by omega)

/-- So is the number before, unless the steps below the number are finer than those above. -/
theorem NearestRoot.ge_of_rounded_sq (h : NearestRoot f q u) (hq : value w ≤ q)
    (hw : Rounded f ((m * 2 ^ e) ^ 2) w) (hm : 0 < m) (hc : Canonical f m e)
    (hmfull : 2 ^ f.mantissaBitsWithoutImplicit ≤ m)
    (hfull : 2 ^ (f.minExponent + f.mantissaBitsWithoutImplicit) ≤ ((m : Rat) * 2 ^ e) ^ 2) :
    m * 2 ^ e ≤ value u := by
  by_contra hgt
  have hlt := not_le.1 hgt
  rcases hmfull.eq_or_lt with rfl | hmlt
  · have hsq := h.lt_sq_of_lt (y := .finite .positive _ e hm) hc rfl (by rwa [value_positive])
    rw [rounded_sq_of_two_pow hw hfull] at hq
    rw [value_positive] at hsq
    exact hq.not_gt hsq
  · have habove := h.above (.finite .positive m e hm) hc rfl
    rw [value_positive] at habove
    have habove := habove hlt
    have hprev := le_pred_of_lt hmlt h.stored h.finite hlt
    have hu := h.nonneg
    have hstep : (0 : Rat) < 2 ^ e := by positivity
    have herror := (abs_le.1 (hw.abs_sub_le_of_full (hfull.trans (le_abs_self _)))).1
    have hbits : (m : Rat) + 1 ≤ 2 ^ f.mantissaBits := by exact_mod_cast hc.lt
    have hhalf : (2 : Rat) ^ f.mantissaBits < 2 * m := by
      have : ((2 ^ f.mantissaBitsWithoutImplicit : Nat) : Rat) < m := by exact_mod_cast hmlt
      rw [mantissaBits_eq, pow_add, pow_one]
      push_cast at this
      linarith
    rw [abs_of_nonneg (sq_nonneg _)] at herror
    generalize (2 : Rat) ^ e = step at *
    generalize (2 : Rat) ^ f.mantissaBits = bound at *
    have hsmall : ((m : Rat) * step) ^ 2 / bound < (m - 1 / 2) * (step * step) := by
      have hsq : (m : Rat) * m < (m - 1 / 2) * bound := by
        have hm0 : (0 : Rat) ≤ m := Nat.cast_nonneg m
        have := mul_le_mul_of_nonneg_left hbits hm0
        linarith
      rw [div_lt_iff₀ (by linarith)]
      linarith [mul_lt_mul_of_pos_right hsq (mul_pos hstep hstep)]
    have hsq : (value u + m * step) ^ 2 ≤ (2 * (m * step) - step) ^ 2 :=
      pow_le_pow_left₀ (by positivity) (by linarith) 2
    linarith [mul_pos hstep hstep]

end square

/-- What is at most the rounded square of a number has a root that is at most that number, and so for
what is at least the rounded square. -/
theorem NearestRoot.compare_of_rounded_sq {w : UnpackedFloat} (hf : 2 ≤ f.exponentBits)
    (h : NearestRoot f q u) (hw : Rounded f (value y ^ 2) w) (hy : Stored f y)
    (fy : y.isFinite = true)
    (hfull : value y = 0 ∨ 2 ^ (f.minExponent + f.mantissaBitsWithoutImplicit) ≤ value y ^ 2) :
    (q ≤ value w → value u ≤ |value y|) ∧ (value w ≤ q → |value y| ≤ value u) := by
  rcases hfull with hzero | hfull
  · have hw0 : value w = 0 := by
      rw [hzero, sq, mul_zero] at hw
      exact hw.value_eq_zero
    rw [hzero, abs_zero]
    refine ⟨fun hle => h.le_of_le_sq (y := .zero .positive) trivial rfl le_rfl ?_, fun _ => h.nonneg⟩
    rw [value_zero]
    linarith
  · rw [← sq_abs] at hw hfull
    cases y with
    | infinity s => cases fy
    | notANumber => cases fy
    | zero s =>
      refine absurd hfull (not_le.2 ?_)
      rw [value_zero, abs_zero, sq, mul_zero]
      positivity
    | finite s m e hm =>
      have habs : |value (.finite s m e hm)| = m * 2 ^ e := by
        rw [value_finite, abs_signed, abs_of_nonneg (by positivity)]
      rw [habs] at hw hfull ⊢
      exact ⟨fun hq => h.le_of_rounded_sq hq hw hm hy hfull,
        fun hq => h.ge_of_rounded_sq hq hw hm hy (full_of_full_sq hf hy hfull) hfull⟩

/-! ## magnitudes -/

/-- A number of the format that is not negative, the infinite one included. -/
structure Magnitude (f : Format) (u : UnpackedFloat) : Prop where
  stored : Stored f u
  number : u ≠ .notANumber
  nonneg : 0 ≤ level u

theorem magnitude_infinite (f : Format) : Magnitude f (.infinity .positive) := ⟨trivial, nofun, le_top⟩

theorem magnitude_of_finite (hu : Stored f u) (fu : u.isFinite = true) (h0 : 0 ≤ value u) :
    Magnitude f u := by
  refine ⟨hu, ?_, ?_⟩
  · rintro rfl
    cases fu
  · rw [level_of_finite fu]
    exact WithBot.coe_le_coe.2 (WithTop.coe_le_coe.2 h0)

theorem Magnitude.cases (h : Magnitude f u) :
    u = .infinity .positive ∨ u.isFinite = true ∧ 0 ≤ value u := by
  by_cases fu : u.isFinite = true
  · have h0 := h.nonneg
    rw [level_of_finite fu] at h0
    exact .inr ⟨fu, WithTop.coe_le_coe.1 (WithBot.coe_le_coe.1 h0)⟩
  · left
    cases u with
    | infinity s =>
      cases s with
      | positive => rfl
      | negative => exact absurd h.nonneg (not_le.2 (WithBot.bot_lt_coe _))
    | notANumber => exact absurd rfl h.number
    | zero s => exact absurd rfl fu
    | finite s m e hm => exact absurd rfl fu

theorem Rounded.magnitude (h : Rounded f q u) (hq : 0 ≤ q) : Magnitude f u :=
  magnitude_of_finite h.stored h.finite (h.nonneg hq)

theorem Magnitude.unpack_pack (hf : 2 ≤ f.exponentBits) (h : Magnitude f u) :
    Magnitude f (UnpackedFloat.unpack f (UnpackedFloat.pack f u)) := by
  rcases h.cases with rfl | ⟨fu, h0⟩
  · rw [unpack_pack_of_not_finite rfl]
    exact h
  · rcases unpack_pack_of_nonneg hf h.stored fu h0 with hu | hu
    · rw [hu]
      exact h
    · rw [hu]
      exact magnitude_infinite f

theorem magnitude_mul_self (hu : Stored f u) (hnumber : u ≠ .notANumber) :
    Magnitude f (UnpackedFloat.mul f u u) := by
  have hfinite : u.isFinite = true → Magnitude f (UnpackedFloat.mul f u u) :=
    fun fu => (rounded_mul hu hu fu fu).magnitude (mul_self_nonneg _)
  cases u with
  | notANumber => exact absurd rfl hnumber
  | infinity s => cases s <;> exact magnitude_infinite f
  | zero s => exact hfinite rfl
  | finite s m e hm => exact hfinite rfl

theorem Magnitude.add (hu : Magnitude f u) (hy : Magnitude f y) :
    Magnitude f (UnpackedFloat.add f u y) := by
  rcases hu.cases with rfl | ⟨fu, hu0⟩
  · rcases hy.cases with rfl | ⟨fy, -⟩
    · exact magnitude_infinite f
    · cases y with
      | infinity s => cases fy
      | notANumber => cases fy
      | zero s => exact magnitude_infinite f
      | finite s m e hm => exact magnitude_infinite f
  · rcases hy.cases with rfl | ⟨fy, hy0⟩
    · cases u with
      | infinity s => cases fu
      | notANumber => cases fu
      | zero s => exact magnitude_infinite f
      | finite s m e hm => exact magnitude_infinite f
    · exact (rounded_add hu.stored hy.stored fu fy).magnitude (add_nonneg hu0 hy0)

/-- A root that is neither infinite nor a NaN is one of a finite number that is not negative. -/
theorem finite_of_sqrt (hnumber : UnpackedFloat.sqrt f u ≠ .notANumber)
    (hfinite : UnpackedFloat.sqrt f u ≠ .infinity .positive) : u.isFinite = true ∧ 0 ≤ value u := by
  cases u with
  | notANumber => exact absurd rfl hnumber
  | infinity s =>
    cases s with
    | positive => exact absurd rfl hfinite
    | negative => exact absurd rfl hnumber
  | zero s => exact ⟨rfl, le_rfl⟩
  | finite s m e hm =>
    cases s with
    | positive => exact ⟨rfl, (value_positive_pos hm).le⟩
    | negative => exact absurd rfl hnumber

end Binary

/-! ## singles -/

namespace Single

open Binary (Rounded NearestRoot)

variable {x y r : Float32} {q : Rat}

theorem nearestRoot_sqrt (hx : x.isFinite = true) (h0 : 0 ≤ value x) :
    NearestRoot .binary32 (value x) x.sqrt.toModel.unpack := by
  have hroot := Binary.nearestRoot_sqrt (f := .binary32) hx h0
  obtain ⟨y, hy, hvalue⟩ : ∃ y : Float32, y.isFinite = true ∧ value y = 2 ^ 64 :=
    ⟨18446744073709551616.0, by decide +kernel, by decide +kernel⟩
  have hle : Binary.value (UnpackedFloat.sqrt .binary32 x.toModel.unpack) ≤ 2 ^ 64 := by
    rw [← hvalue]
    refine hroot.le_of_le_sq (stored y) hy ?_ ?_
    · change 0 ≤ value y
      rw [hvalue]
      positivity
    · change value x ≤ value y ^ 2
      have hlt := (le_abs_self _).trans_lt (abs_value_lt hx)
      rw [hvalue]
      linarith
  have hlimit : |Binary.value (UnpackedFloat.sqrt .binary32 x.toModel.unpack)| < 2 ^ (128 : Int) := by
    rw [abs_of_nonneg hroot.nonneg]
    exact hle.trans_lt (by norm_num)
  have hpack := Binary.unpack_pack (f := .binary32) (by decide) hroot.stored hroot.finite hlimit
  rw [show x.sqrt.toModel.unpack = _ from hpack]
  exact hroot

/-- A number that is not negative, the infinite one included. -/
def Magnitude (x : Float32) : Prop := Binary.Magnitude .binary32 x.toModel.unpack

theorem magnitude_of_finite (hx : x.isFinite = true) (h0 : 0 ≤ value x) : Magnitude x :=
  Binary.magnitude_of_finite (stored x) hx h0

theorem Magnitude.of_lt (hx : Magnitude x) (h : x < y) : Magnitude y := by
  rw [lt_iff_level] at h
  exact ⟨stored y, h.2.1, hx.nonneg.trans h.2.2.le⟩

theorem Magnitude.le_infinite (hx : Magnitude x) (hy : y.toModel.unpack = .infinity .positive) :
    x ≤ y := by
  rw [le_iff_level, hy]
  exact ⟨hx.number, nofun, le_top⟩

theorem lt_infinite (hx : x.isFinite = true) (hy : y.toModel.unpack = .infinity .positive) :
    x < y := by
  have hnumber : x.toModel.unpack ≠ .notANumber := fun hnan => by
    change x.toModel.unpack.isFinite = true at hx
    rw [hnan] at hx
    cases hx
  rw [lt_iff_level, hy]
  exact ⟨hnumber, nofun, Binary.level_lt_top hx⟩

theorem Magnitude.finite_of_le (hx : Magnitude x) (hy : y.isFinite = true) (h : x ≤ y) :
    x.isFinite = true ∧ 0 ≤ value x := by
  refine hx.cases.resolve_left fun hinfinite => ?_
  rw [le_iff_level, hinfinite] at h
  exact h.2.2.not_gt (Binary.level_lt_top hy)

theorem magnitude_mul_self (hx : x.toModel.unpack ≠ .notANumber) : Magnitude (x * x) :=
  (Binary.magnitude_mul_self (stored x) hx).unpack_pack (by decide)

theorem Magnitude.add (hx : Magnitude x) (hy : Magnitude y) : Magnitude (x + y) :=
  (Binary.Magnitude.add hx hy).unpack_pack (by decide)

/-- A product of numbers that are not negative is infinite, or it is what it is rounded to. -/
theorem mul_cases (hx : x.isFinite = true) (hy : y.isFinite = true) (hx0 : 0 ≤ value x)
    (hy0 : 0 ≤ value y) : (x * y).toModel.unpack = .infinity .positive ∨
      Rounded .binary32 (value x * value y) (x * y).toModel.unpack := by
  have hrounded := Binary.rounded_mul (stored x) (stored y) hx hy
  have hpack : (x * y).toModel.unpack = UnpackedFloat.unpack .binary32 (UnpackedFloat.pack .binary32
      (UnpackedFloat.mul .binary32 x.toModel.unpack y.toModel.unpack)) := rfl
  rw [hpack]
  refine (Binary.unpack_pack_of_nonneg (by decide) hrounded.stored hrounded.finite
    (hrounded.nonneg (mul_nonneg hx0 hy0))).symm.imp_right fun hu => ?_
  rw [hu]
  exact hrounded

/-- The square of a magnitude is infinite, or it is what it is rounded to. -/
theorem Magnitude.mul_self_cases (hr : Magnitude r) : (r * r).toModel.unpack = .infinity .positive ∨
    r.isFinite = true ∧ 0 ≤ value r ∧ Rounded .binary32 (value r ^ 2) (r * r).toModel.unpack := by
  rcases hr.cases with hinfinite | ⟨hr, h0⟩
  · left
    change UnpackedFloat.unpack .binary32 (UnpackedFloat.pack .binary32
      (UnpackedFloat.mul .binary32 r.toModel.unpack r.toModel.unpack)) = _
    rw [hinfinite]
    exact Binary.unpack_pack_of_not_finite rfl
  · rw [sq]
    exact (mul_cases hr hr h0 h0).imp_right fun hrounded => ⟨hr, h0, hrounded⟩

theorem sqrt_infinite (hx : x.toModel.unpack = .infinity .positive) :
    x.sqrt.toModel.unpack = .infinity .positive := by
  change UnpackedFloat.unpack .binary32 (UnpackedFloat.pack .binary32
    (UnpackedFloat.sqrt .binary32 x.toModel.unpack)) = _
  rw [hx]
  exact Binary.unpack_pack_of_not_finite rfl

theorem Magnitude.sqrt (hx : Magnitude x) : Magnitude x.sqrt := by
  rcases hx.cases with hinfinite | ⟨hx, h0⟩
  · have hroot : Binary.Magnitude .binary32 x.sqrt.toModel.unpack :=
      sqrt_infinite hinfinite ▸ Binary.magnitude_infinite _
    exact hroot
  · have hroot := nearestRoot_sqrt hx h0
    exact magnitude_of_finite hroot.finite hroot.nonneg

theorem infinite_beq_finite (hx : x.toModel.unpack = .infinity .positive) (hy : y.isFinite = true) :
    (x == y) = false := by
  change y.toModel.unpack.isFinite = true at hy
  change (x.toModel.unpack.compare y.toModel.unpack == some .eq) = false
  rw [hx]
  generalize y.toModel.unpack = v at hy ⊢
  cases v with
  | infinity s => cases hy
  | _ => rfl

/-! ### roots and squares -/

theorem finite_of_sqrt_lt (h : x.sqrt < r) : x.isFinite = true ∧ 0 ≤ value x := by
  have hpack : x.sqrt.toModel.unpack = UnpackedFloat.unpack .binary32 (UnpackedFloat.pack .binary32
      (UnpackedFloat.sqrt .binary32 x.toModel.unpack)) := rfl
  obtain ⟨hnumber, -, hlt⟩ := lt_iff_level.1 h
  refine Binary.finite_of_sqrt (f := .binary32) (fun hnan => ?_) fun hinfinite => ?_
  · rw [hpack, hnan, Binary.unpack_pack_of_not_finite rfl] at hnumber
    exact hnumber rfl
  · rw [hpack, hinfinite, Binary.unpack_pack_of_not_finite rfl] at hlt
    exact not_top_lt hlt

/-- **What has a root below `r` is at most the square of `r`.** -/
theorem le_mul_self_of_sqrt_lt (h : x.sqrt < r) : x ≤ r * r := by
  obtain ⟨hx, h0⟩ := finite_of_sqrt_lt h
  have hroot := nearestRoot_sqrt hx h0
  have hr : Magnitude r := (magnitude_of_finite hroot.finite hroot.nonneg).of_lt h
  rcases hr.mul_self_cases with hinfinite | ⟨hr, -, hrounded⟩
  · exact (magnitude_of_finite hx h0).le_infinite hinfinite
  · have hlt := hroot.lt_sq_of_lt (stored r) hr ((lt_iff hroot.finite hr).1 h)
    rw [le_iff hx hrounded.finite]
    exact hrounded.le_of_stored (stored x) hx hlt.le

/-- A greater number has a greater root, or the same. -/
theorem sqrt_le_sqrt (hx : x.isFinite = true) (hy : y.isFinite = true) (h0 : 0 ≤ value x)
    (hle : value x ≤ value y) : value x.sqrt ≤ value y.sqrt := by
  have hrootx := nearestRoot_sqrt hx h0
  have hrooty := nearestRoot_sqrt hy (h0.trans hle)
  rcases hle.lt_or_eq with hlt | heq
  · exact hrootx.le_of_lt hrooty hlt
  · rcases h0.lt_or_eq with hpos | hzero
    · have hunpack := Binary.eq_of_value (stored x) (stored y) hx hy (hpos.trans_eq heq) heq
      refine le_of_eq (congrArg Binary.value ?_)
      change UnpackedFloat.unpack .binary32 (UnpackedFloat.pack .binary32
        (UnpackedFloat.sqrt .binary32 x.toModel.unpack)) = _
      rw [hunpack]
      rfl
    · exact hrootx.le_of_le_sq hrooty.stored hrooty.finite hrooty.nonneg
        (hzero ▸ sq_nonneg (Binary.value _))

/-- A number that can be squared with an error in the last digit only. -/
structure Squarable (r : Float32) : Prop where
  finite : r.isFinite = true
  not_tiny : value r = 0 ∨ 1 / 2 ^ 63 ≤ |value r|
  not_huge : (r * r).isFinite = true

instance (r : Float32) : Decidable (Squarable r) :=
  decidable_of_iff (r.isFinite = true ∧ (value r = 0 ∨ 1 / 2 ^ 63 ≤ |value r|) ∧
      (r * r).isFinite = true)
    ⟨fun h => ⟨h.1, h.2.1, h.2.2⟩, fun h => ⟨h.finite, h.not_tiny, h.not_huge⟩⟩

/-- On either side of the rounded square, roots are on the same side of the number. -/
theorem Squarable.sqrt_cases (hr : Squarable r) (hx : x.isFinite = true) (h0 : 0 ≤ value x) :
    (value x ≤ value (r * r) → value x.sqrt ≤ |value r|) ∧
      (value (r * r) ≤ value x → |value r| ≤ value x.sqrt) := by
  refine (nearestRoot_sqrt hx h0).compare_of_rounded_sq (by decide)
    (rounded_mul_self_of_finite hr.not_huge) (stored r) hr.finite
    (hr.not_tiny.imp_right fun hle => ?_)
  have hpow : (2 : Rat) ^ (Format.binary32.minExponent + Format.binary32.mantissaBitsWithoutImplicit) =
      (1 / 2 ^ 63) ^ 2 := by
    rw [show Format.binary32.minExponent + Format.binary32.mantissaBitsWithoutImplicit = -126 by decide]
    norm_num
  change _ ≤ value r ^ 2
  rw [hpow, ← sq_abs (value r)]
  exact pow_le_pow_left₀ (by positivity) hle 2

theorem value_eq_zero_of_sqrt (hx : x.isFinite = true) (h0 : 0 ≤ value x)
    (h : value x.sqrt = 0) : value x = 0 := by
  obtain ⟨y, hy, hvalue⟩ : ∃ y : Float32, y.isFinite = true ∧ value y = 1 / 2 ^ 75 :=
    ⟨2.6469779601696886e-23, by decide +kernel, by decide +kernel⟩
  have hlt : value x < value y ^ 2 := by
    refine (nearestRoot_sqrt hx h0).lt_sq_of_lt (stored y) hy ?_
    change value x.sqrt < value y
    rw [h, hvalue]
    positivity
  -- which is half of the least number there is
  obtain ⟨k, hk⟩ : ∃ k : Int, value x = k * 2 ^ (-149 : Int) := Binary.exists_multiple (stored x) hx
  rw [hk, hvalue, show ((1 / 2 ^ 75) ^ 2 : Rat) = 1 / 2 * 2 ^ (-149 : Int) by norm_num] at hlt
  have hk1 : (k : Rat) < 1 := (lt_of_mul_lt_mul_right hlt (by positivity)).trans one_half_lt_one
  have hk0 : k ≤ 0 := Int.lt_add_one_iff.1 (by exact_mod_cast hk1)
  refine h0.antisymm' ?_
  rw [hk]
  exact mul_nonpos_of_nonpos_of_nonneg (by exact_mod_cast hk0) (by positivity)

/-- If the root of a single square is the radius, then the square is not above that of the radius. -/
theorem mul_self_le_of_sqrt_eq {d : Float32} (hdd : (d * d).isFinite = true)
    (hr : Squarable r) (h0 : 0 ≤ value r) (hx : x.isFinite = true) (hvalue : value x = value (d * d))
    (hroot : value x.sqrt = value r) : value x ≤ value (r * r) := by
  have hrounded := rounded_mul_self_of_finite hdd
  have hrounded' := rounded_mul_self_of_finite hr.not_huge
  have hx0 : 0 ≤ value x := hvalue ▸ hrounded.nonneg (sq_nonneg _)
  rcases hr.not_tiny with hzero | htiny
  · rw [value_eq_zero_of_sqrt hx hx0 (hroot.trans hzero)]
    exact hrounded'.nonneg (sq_nonneg _)
  · rcases le_or_gt |value d| |value r| with hle | hlt
    · rw [hvalue]
      exact hrounded.mono hrounded' (sq_le_sq.2 hle)
    · have hsq : Squarable d := ⟨isFinite_of_mul_self hdd, .inr (htiny.trans hlt.le), hdd⟩
      have hge := (hsq.sqrt_cases hx hx0).2 hvalue.ge
      rw [hroot, ← abs_of_nonneg h0] at hge
      exact absurd hlt hge.not_gt

end Single

end Wireboard
