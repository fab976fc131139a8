import Mathlib
import Wireboard.Proofs.Number.Rounding

/-!
# Storing numbers

A finite number in stored form is read back as it was stored, unless its exponent is too great for the
format (`unpack_pack`).  Too great it is for numbers from `2 ^ (maxExponent + mantissaBits)` on
(`Canonical.le_maxExponent`), which are stored as infinite (`unpack_pack_of_lt`): what comes back as a finite
number is what was stored (`unpack_pack_of_finite`).
-/

namespace Wireboard

open Float.Model (Format UnpackedFloat totalExponent)

namespace Binary

variable {f : Format} {s : UnpackedFloat.Sign} {m n : Nat} {e j : Int}

theorem finite_eq {hm : 0 < m} {hn : 0 < n} (hmn : m = n) (hej : e = j) :
    UnpackedFloat.finite s m e hm = .finite s n j hn := by
  subst hmn hej
  rfl

/-- A positive number has one stored form only. -/
theorem eq_finite_of_value {u : UnpackedFloat} (hu : Stored f u) (fu : u.isFinite = true)
    (hm : 0 < m) (hc : Canonical f m e) (h : value u = m * 2 ^ e) :
    u = .finite .positive m e hm := by
  have hpos : 0 < value u := by
    rw [h, ← value_positive hm]
    exact value_positive_pos hm
  cases u with
  | infinity s => cases fu
  | notANumber => cases fu
  | zero s => exact absurd hpos (lt_irrefl _)
  | finite s n j hn =>
    cases s with
    | negative => exact absurd hpos (value_negative_neg hn).not_gt
    | positive =>
      rw [value_positive] at h
      have hcompare := compare_of_canonical hu hc
      rw [h, compare_eq_iff_eq.2 rfl, Ordering.then_eq_eq] at hcompare
      exact finite_eq (compare_eq_iff_eq.1 hcompare.2) (compare_eq_iff_eq.1 hcompare.1)

theorem eq_of_value {u y : UnpackedFloat} (hu : Stored f u) (hy : Stored f y) (fu : u.isFinite = true)
    (fy : y.isFinite = true) (hpos : 0 < value y) (h : value u = value y) : u = y := by
  cases y with
  | infinity s => cases fy
  | notANumber => cases fy
  | zero s => exact absurd hpos (lt_irrefl _)
  | finite s m e hm =>
    cases s with
    | negative => exact absurd hpos (value_negative_neg hm).not_gt
    | positive => exact eq_finite_of_value hu fu hm hy (h.trans (value_positive hm))

section unpack

variable {b : BitVec f.numBits} {x : BitVec f.exponentBits}
  {y : BitVec f.mantissaBitsWithoutImplicit}

/-- The parts of what is stored. -/
structure Parts (f : Format) (b : BitVec f.numBits) (s : UnpackedFloat.Sign)
    (x : BitVec f.exponentBits) (y : BitVec f.mantissaBitsWithoutImplicit) : Prop where
  sign : .ofBitVec (UnpackedFloat.unpackSign b) = s
  exponent : UnpackedFloat.unpackExponent b = x
  mantissa : UnpackedFloat.unpackMantissa b = y

theorem parts_packComponents (f : Format) (s : UnpackedFloat.Sign) (x : BitVec f.exponentBits)
    (y : BitVec f.mantissaBitsWithoutImplicit) :
    Parts f (UnpackedFloat.packComponents f s x y) s x y := by
  refine ⟨?_, UnpackedFloat.unpackExponent_packComponents, UnpackedFloat.unpackMantissa_packComponents⟩
  rw [UnpackedFloat.unpackSign_packComponents, UnpackedFloat.Sign.ofBitVec_toBitVec]

/-- The exponent is the least one and the leading bit of the mantissa is not in use. -/
theorem Parts.unpack_subnormal (h : Parts f b s x y) (hones : x ≠ -1#f.exponentBits)
    (hx : x = 0#f.exponentBits) (hy : y.toNat = m) (hm : 0 < m) :
    UnpackedFloat.unpack f b = .finite s m f.minExponent hm := by
  obtain ⟨rfl, rfl, rfl⟩ := h
  have hy0 : UnpackedFloat.unpackMantissa b ≠ 0#f.mantissaBitsWithoutImplicit := by
    intro h0
    rw [h0, BitVec.toNat_zero] at hy
    omega
  have hexp : (UnpackedFloat.unpackExponent b).toNat = 0 := by rw [hx, BitVec.toNat_zero]
  delta UnpackedFloat.unpack
  dsimp only
  rw [if_neg hones, if_pos hx, dif_neg hy0]
  refine finite_eq hy ?_
  rw [hexp, minExponent_eq]
  omega

/-- The leading bit of the mantissa is not stored. -/
theorem Parts.unpack_normal (h : Parts f b s x y) (hones : x ≠ -1#f.exponentBits)
    (hx : x ≠ 0#f.exponentBits) (he : (x.toNat : Int) = e + f.exponentBias + f.mantissaBitsWithoutImplicit)
    (hy : 2 ^ f.mantissaBitsWithoutImplicit + y.toNat = m) (hm : 0 < m) :
    UnpackedFloat.unpack f b = .finite s m e hm := by
  obtain ⟨rfl, rfl, rfl⟩ := h
  delta UnpackedFloat.unpack
  dsimp only
  rw [if_neg hones, if_neg hx]
  refine finite_eq ?_ (by omega)
  rw [BitVec.toNat_append, ← Nat.shiftLeft_add_eq_or_of_lt (BitVec.isLt _), Nat.shiftLeft_eq, ← hy]
  simp

theorem Parts.unpack_infinity (h : Parts f b s x y) (hones : x = -1#f.exponentBits)
    (hy : y = 0#f.mantissaBitsWithoutImplicit) : UnpackedFloat.unpack f b = .infinity s := by
  obtain ⟨rfl, rfl, rfl⟩ := h
  delta UnpackedFloat.unpack
  dsimp only
  rw [if_pos hones, if_pos hy]

end unpack

theorem minExponent_le_maxExponent (hf : 2 ≤ f.exponentBits) : f.minExponent ≤ maxExponent f := by
  have hfour : 2 ^ 2 ≤ 2 ^ f.exponentBits := Nat.pow_le_pow_right (by decide) hf
  have hcast : ((2 ^ f.exponentBits : Nat) : Int) = 2 ^ f.exponentBits := by push_cast; rfl
  rw [minExponent_eq]
  unfold maxExponent
  omega

theorem toNat_allOnes (f : Format) : (-1#f.exponentBits).toNat = 2 ^ f.exponentBits - 1 := by
  rw [BitVec.neg_one_eq_allOnes, BitVec.toNat_allOnes]

/-- A mantissa with a greater exponent is filled up. -/
theorem Canonical.le_maxExponent (h : Canonical f m e)
    (hlt : (m : Rat) * 2 ^ e < 2 ^ (maxExponent f + f.mantissaBits)) (hf : 2 ≤ f.exponentBits) :
    e ≤ maxExponent f := by
  have hbits := mantissaBits_eq f
  by_contra hgt
  have hfull : 2 ^ f.mantissaBitsWithoutImplicit ≤ m := by
    rcases h.full with hfull | hleast
    · exact hfull
    · have hle := minExponent_le_maxExponent hf
      omega
  have hfull' : (2 : Rat) ^ f.mantissaBitsWithoutImplicit ≤ m := by exact_mod_cast hfull
  refine absurd hlt (not_lt.2 ?_)
  calc (2 : Rat) ^ (maxExponent f + f.mantissaBits)
      ≤ 2 ^ (f.mantissaBitsWithoutImplicit + e : Int) := by
        refine zpow_le_zpow_right₀ (by norm_num) ?_
        omega
    _ = 2 ^ f.mantissaBitsWithoutImplicit * 2 ^ e := by
        rw [zpow_add₀ (by norm_num), zpow_natCast]
    _ ≤ m * 2 ^ e := by gcongr

theorem unpack_packComponents_subnormal (s : UnpackedFloat.Sign) (hm : 0 < m)
    (hlt : m < 2 ^ f.mantissaBitsWithoutImplicit) :
    UnpackedFloat.unpack f (UnpackedFloat.packComponents f s 0 (.ofNat _ m)) =
      .finite s m f.minExponent hm := by
  have hones : 0#f.exponentBits ≠ -1#f.exponentBits := by
    rw [ne_eq, BitVec.zero_eq_neg_one_iff]
    exact Nat.ne_of_gt f.he
  refine (parts_packComponents f s _ _).unpack_subnormal hones rfl ?_ hm
  rw [BitVec.toNat_ofNat, Nat.mod_eq_of_lt hlt]

theorem unpack_packComponents_normal (s : UnpackedFloat.Sign) (hm : 0 < m) {k : Nat}
    (hk : e + f.exponentBias + f.mantissaBitsWithoutImplicit = k) (hk0 : k ≠ 0)
    (hk1 : k + 1 < 2 ^ f.exponentBits) (hfull : 2 ^ f.mantissaBitsWithoutImplicit ≤ m)
    (hlt : m < 2 ^ f.mantissaBits) :
    UnpackedFloat.unpack f (UnpackedFloat.packComponents f s (.ofNat _ k) (.ofNat _ m)) =
      .finite s m e hm := by
  have hktoNat : (BitVec.ofNat f.exponentBits k).toNat = k := by
    rw [BitVec.toNat_ofNat, Nat.mod_eq_of_lt (by omega)]
  refine (parts_packComponents f s _ _).unpack_normal ?_ ?_ ?_ ?_ hm
  · intro h
    have := congrArg BitVec.toNat h
    rw [hktoNat, toNat_allOnes f] at this
    omega
  · intro h
    have := congrArg BitVec.toNat h
    rw [hktoNat, BitVec.toNat_zero] at this
    exact hk0 this
  · rw [hktoNat, hk]
  · rw [mantissaBits_eq, pow_add, pow_one] at hlt
    rw [BitVec.toNat_ofNat, Nat.mod_eq_sub_mod hfull, Nat.mod_eq_of_lt (by omega)]
    omega

/-- What is stored in the format is what is read, if it is not too great. -/
theorem unpack_pack {u : UnpackedFloat} (hf : 2 ≤ f.exponentBits) (hu : Stored f u)
    (fu : u.isFinite = true) (hlt : |value u| < 2 ^ (maxExponent f + f.mantissaBits)) :
    UnpackedFloat.unpack f (UnpackedFloat.pack f u) = u := by
  cases u with
  | infinity s => cases fu
  | notANumber => cases fu
  | zero s => exact UnpackedFloat.unpack_packedZero
  | finite s m e hm =>
    have hbits := mantissaBits_eq f
    have hmin := minExponent_eq f
    rw [value_finite, abs_signed, abs_of_nonneg (by positivity)] at hlt
    have hmax := Canonical.le_maxExponent hu hlt hf
    obtain ⟨hlt, hleast, hfull⟩ := hu
    obtain ⟨k, hk⟩ := Int.eq_ofNat_of_zero_le
      (a := e + f.exponentBias + f.mantissaBitsWithoutImplicit) (by omega)
    have hcast : ((2 ^ f.exponentBits : Nat) : Int) = 2 ^ f.exponentBits := by push_cast; rfl
    have hk1 : k + 1 < 2 ^ f.exponentBits := by
      unfold maxExponent at hmax
      omega
    have hbiased : (e + f.exponentBias + f.mantissaBitsWithoutImplicit).toNat = k := by omega
    change UnpackedFloat.unpack f (if 2 ^ f.exponentBits ≤
      (e + f.exponentBias + f.mantissaBitsWithoutImplicit).toNat + 1 then _ else
      if m.log2 + 1 = f.mantissaBits then _ else _) = _
    rw [if_neg (by omega), hbiased]
    by_cases hnormal : 2 ^ f.mantissaBitsWithoutImplicit ≤ m
    · have hlog : m.log2 + 1 = f.mantissaBits := by
        have hge := (Nat.le_log2 hm.ne').2 hnormal
        have hlt' := (Nat.log2_lt hm.ne').2 hlt
        omega
      rw [if_pos hlog]
      exact unpack_packComponents_normal s hm hk (by omega) hk1 hnormal hlt
    · have hlog : m.log2 + 1 ≠ f.mantissaBits := by
        have hlt' := (Nat.log2_lt hm.ne').2 (not_le.1 hnormal)
        omega
      obtain rfl : e = f.minExponent := hfull.resolve_left hnormal
      rw [if_neg hlog]
      exact unpack_packComponents_subnormal s hm (not_le.1 hnormal)

theorem abs_value_lt {s : UnpackedFloat.Sign} (hm : 0 < m) (hc : Canonical f m e)
    (hmax : e ≤ maxExponent f) :
    |value (.finite s m e hm)| < 2 ^ (maxExponent f + f.mantissaBits) := by
  have hlt : (m : Rat) < 2 ^ f.mantissaBits := by exact_mod_cast hc.lt
  rw [value_finite, abs_signed, abs_of_nonneg (by positivity)]
  calc (m : Rat) * 2 ^ e < 2 ^ f.mantissaBits * 2 ^ e := by gcongr
    _ ≤ 2 ^ f.mantissaBits * 2 ^ maxExponent f := by gcongr; norm_num
    _ = 2 ^ (maxExponent f + f.mantissaBits) := by
      rw [zpow_add₀ (by norm_num), zpow_natCast, mul_comm]

/-- What is infinite or no number is stored as such. -/
theorem unpack_pack_of_not_finite {u : UnpackedFloat} (fu : u.isFinite = false) :
    UnpackedFloat.unpack f (UnpackedFloat.pack f u) = u := by
  cases u with
  | infinity s => exact (parts_packComponents f s _ _).unpack_infinity rfl rfl
  | notANumber => exact UnpackedFloat.unpack_packedNaN
  | zero s => cases fu
  | finite s m e hm => cases fu

theorem unpack_pack_of_lt (s : UnpackedFloat.Sign) (hm : 0 < m) (hleast : f.minExponent ≤ e)
    (hgt : maxExponent f < e) :
    UnpackedFloat.unpack f (UnpackedFloat.pack f (.finite s m e hm)) = .infinity s := by
  have hmin := minExponent_eq f
  have hcast : ((2 ^ f.exponentBits : Nat) : Int) = 2 ^ f.exponentBits := by push_cast; rfl
  have hpack : UnpackedFloat.pack f (.finite s m e hm) = UnpackedFloat.packedInfinity f s := by
    refine if_pos ?_
    unfold maxExponent at hgt
    omega
  rw [hpack]
  exact unpack_pack_of_not_finite (u := .infinity s) rfl

theorem unpack_pack_ne_notANumber {u : UnpackedFloat} (hf : 2 ≤ f.exponentBits) (hu : Stored f u)
    (nu : u ≠ .notANumber) :
    UnpackedFloat.unpack f (UnpackedFloat.pack f u) ≠ .notANumber := by
  cases u with
  | notANumber => exact absurd rfl nu
  | infinity s =>
    rw [unpack_pack_of_not_finite rfl]
    exact nofun
  | zero s =>
    rw [show UnpackedFloat.unpack f (UnpackedFloat.pack f (.zero s)) = .zero s from
      UnpackedFloat.unpack_packedZero]
    exact nofun
  | finite s m e hm =>
    rcases le_or_gt e (maxExponent f) with hmax | hgt
    · rw [unpack_pack hf hu rfl (abs_value_lt hm hu hmax)]
      exact nofun
    · rw [unpack_pack_of_lt s hm hu.least hgt]
      exact nofun

/-- A number that is not negative is read as it was stored or as infinite. -/
theorem unpack_pack_of_nonneg {u : UnpackedFloat} (hf : 2 ≤ f.exponentBits) (hu : Stored f u)
    (fu : u.isFinite = true) (h0 : 0 ≤ value u) :
    UnpackedFloat.unpack f (UnpackedFloat.pack f u) = u ∨
      UnpackedFloat.unpack f (UnpackedFloat.pack f u) = .infinity .positive := by
  cases u with
  | infinity s => cases fu
  | notANumber => cases fu
  | zero s => exact .inl UnpackedFloat.unpack_packedZero
  | finite s m e hm =>
    cases s with
    | negative => exact absurd h0 (not_le.2 (value_negative_neg hm))
    | positive =>
      rcases le_or_gt e (maxExponent f) with hmax | hgt
      · exact .inl (unpack_pack hf hu fu (abs_value_lt hm hu hmax))
      · exact .inr (unpack_pack_of_lt .positive hm hu.least hgt)

/-- A finite number that is stored as a finite one is read as it is. -/
theorem unpack_pack_of_finite {u : UnpackedFloat} (hf : 2 ≤ f.exponentBits) (hu : Stored f u)
    (h : (UnpackedFloat.unpack f (UnpackedFloat.pack f u)).isFinite = true) :
    UnpackedFloat.unpack f (UnpackedFloat.pack f u) = u := by
  cases u with
  | infinity s => exact unpack_pack_of_not_finite rfl
  | notANumber => exact unpack_pack_of_not_finite rfl
  | zero s => exact UnpackedFloat.unpack_packedZero
  | finite s m e hm =>
    rcases le_or_gt e (maxExponent f) with hmax | hgt
    · exact unpack_pack hf hu rfl (abs_value_lt hm hu hmax)
    · rw [unpack_pack_of_lt s hm hu.least hgt] at h
      cases h

end Binary

end Wireboard
