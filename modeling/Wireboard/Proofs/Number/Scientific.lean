import Wireboard.Proofs.Number.Nearest

/-!
# Decimal numbers are rounded once

The double that is made of a mantissa and a power of ten is the nearest one to what they stand for
(`Double.rounded_ofScientific`).  If both are doubles themselves it is made by one multiplication or
division, and otherwise of numbers with as many digits as it takes.

`Double.eq_of_unpack`: doubles with the same sign, mantissa and exponent are the same.
-/

namespace Wireboard

open Float.Model (Format UnpackedFloat totalExponent)

namespace Binary

variable {f : Format} {m : Nat} {e : Int}

/-- The mantissa is given as many digits as the format has before it is multiplied. -/
theorem rounded_mul_powerOfTen (hm : 0 < m) {k : Nat} (hleft : 0 < m <<< f.mantissaBits)
    (hright : 0 < 10 ^ k) :
    Rounded f (m * 10 ^ (k : Int)) (.mul f
      (.finite .positive (m <<< f.mantissaBits) (-f.mantissaBits) hleft)
      (.finite .positive (10 ^ k) 0 hright)) := by
  have hpos : 0 < m <<< f.mantissaBits * 10 ^ k := Nat.mul_pos hleft hright
  have hvalue : (m : Rat) * 10 ^ (k : Int) =
      signed .positive ((m <<< f.mantissaBits * 10 ^ k : Nat) * 2 ^ (-(f.mantissaBits : Int) + 0)) := by
    rw [signed, Nat.shiftLeft_eq, add_zero, zpow_neg, zpow_natCast, zpow_natCast]
    push_cast
    field_simp
  have hlog : f.mantissaBits ≤ (m <<< f.mantissaBits * 10 ^ k).log2 := by
    rw [Nat.le_log2 hpos.ne', Nat.shiftLeft_eq]
    exact (Nat.le_mul_of_pos_left _ hm).trans (Nat.le_mul_of_pos_right _ hright)
  rw [hvalue]
  refine rounded_roundWithAccuracy (s := .positive) (stands_exact _) ?_ (.inl hpos)
  rw [targetExponent_eq, totalExponent_eq]
  omega

theorem rounded_div_powerOfTen (hm : 0 < m) {k : Nat} (hright : 0 < 10 ^ k) :
    Rounded f (m * 10 ^ (-(k : Int))) (.div f
      (.finite .positive m 0 hm) (.finite .positive (10 ^ k) 0 hright)) := by
  have hrounded := rounded_div (f := f) (x := .finite .positive m 0 hm)
    (y := .finite .positive (10 ^ k) 0 hright) rfl rfl (value_positive_pos hright).ne'
  rw [value_positive, value_positive, zpow_zero, mul_one, mul_one] at hrounded
  have hvalue : (m : Rat) * 10 ^ (-(k : Int)) = m / (10 ^ k : Nat) := by
    rw [zpow_neg, zpow_natCast, div_eq_mul_inv]
    push_cast
    rfl
  rwa [hvalue]

/-- Decimal numbers are rounded once, unless their exponents are so great that none of them counts. -/
theorem rounded_ofScientific (hm : 0 < m) (hlo : -2 ^ f.exponentBits ≤ e) (hhi : e ≤ 2 ^ f.exponentBits) :
    Rounded f (m * 10 ^ e) (UnpackedFloat.ofScientific f m e) := by
  unfold UnpackedFloat.ofScientific
  rw [dif_neg hm.ne', if_neg (by omega), if_neg (by omega)]
  rcases le_or_gt 0 e with he | he
  · obtain ⟨k, rfl⟩ := Int.eq_ofNat_of_zero_le he
    rw [if_pos he]
    exact rounded_mul_powerOfTen hm _ _
  · obtain ⟨k, rfl⟩ := Int.exists_eq_neg_ofNat he.le
    rw [if_neg (by omega)]
    simp only [neg_neg, Int.toNat_natCast]
    exact rounded_div_powerOfTen hm _

end Binary

namespace Double

open Binary (Rounded)

/-- The rational number that a double is, if it is finite. -/
def value (x : Float) : Rat := Binary.value x.toModel.unpack

theorem stored (x : Float) : Binary.Stored .binary64 x.toModel.unpack := by
  cases h : x.toModel.unpack with
  | finite s m e hm => exact (Binary.canonical_of_unpack (by decide) h).1
  | _ => trivial

/-- Doubles are known from what is read of them. -/
theorem eq_of_unpack {x y : Float} (h : y.toModel.unpack = x.toModel.unpack) : y = x := by
  refine Float.toBits_inj.1 (UInt64.toBitVec_inj.1 ?_)
  exact (UnpackedFloat.unpack_inj_of_valid y.toModel.valid x.toModel.valid).1 h

/-- Whole numbers that fit into a mantissa are doubles. -/
theorem value_toFloat {m : Nat} (hm : m < 2 ^ 53) :
    value m.toUInt64.toFloat = m ∧ m.toUInt64.toFloat.isFinite = true := by
  have hcast : m.toUInt64.toNat = m := by
    rw [Nat.toUInt64, UInt64.toNat_ofNat', Nat.mod_eq_of_lt (by omega)]
  have hrounded := Binary.rounded_normalize .binary64 m 0 .positive
  have hvalue := hrounded.value_eq_of_multiple rfl (by decide) (by
    rw [abs_of_nonneg (Int.natCast_nonneg m)]
    exact_mod_cast hm)
  have hunpack := Binary.unpack_pack (f := .binary64) (by decide) hrounded.stored hrounded.finite (by
    rw [hvalue, zpow_zero, mul_one, Int.cast_natCast, abs_of_nonneg (Nat.cast_nonneg m)]
    have hm : (m : Rat) < 2 ^ (53 : Int) := by exact_mod_cast hm
    exact hm.trans_le (zpow_le_zpow_right₀ (by norm_num) (by decide)))
  have hmodel : m.toUInt64.toFloat.toModel.unpack = UnpackedFloat.normalize .binary64 m 0 .positive := by
    rw [← hunpack]
    conv_rhs => rw [← hcast]
    rfl
  refine ⟨?_, ?_⟩
  · rw [value, hmodel, hvalue, zpow_zero, mul_one, Int.cast_natCast]
  · change m.toUInt64.toFloat.toModel.unpack.isFinite = true
    rw [hmodel]
    exact hrounded.finite

theorem value_powerOfTen : ∀ e : Fin 23,
    value Float.exactlyRepresentablePowersOfTen[e] = 10 ^ e.val ∧
      Float.exactlyRepresentablePowersOfTen[e].isFinite = true := by
  decide +kernel

/-- Where mantissa and power of ten are doubles themselves, these are multiplied or divided. -/
theorem ofScientific_of_small {m e : Nat} (h : m < 2 ^ 53 ∧ e ≤ 22) :
    ∃ p, value p = 10 ^ e ∧ p.isFinite = true ∧ ∀ down, Float.ofScientific m down e =
      if down then m.toUInt64.toFloat / p else m.toUInt64.toFloat * p := by
  obtain ⟨hvalue, hfinite⟩ := value_powerOfTen ⟨e, by omega⟩
  exact ⟨_, hvalue, hfinite, fun down => dif_pos h⟩

theorem ofScientific_of_great {m e : Nat} (h : ¬(m < 2 ^ 53 ∧ e ≤ 22)) (down : Bool) :
    Float.ofScientific m down e =
      .ofModel (.ofScientific m (if down then -e else e)) := by
  have hslow : Float.ofScientific m down e =
      .ofModel (.ofScientific m (if down then Int.negOfNat e else Int.ofNat e)) := dif_neg h
  rw [hslow, Int.negOfNat_eq]
  rfl

/-- Decimal numbers are rounded once. -/
theorem rounded_ofScientific {m : Nat} (hm : 0 < m) (down : Bool) {e : Nat} (he : e ≤ 2048) :
    ∃ u, Rounded .binary64 (m * 10 ^ (if down then -e else e : Int)) u ∧
      (Float.ofScientific m down e).toModel.unpack =
        UnpackedFloat.unpack .binary64 (UnpackedFloat.pack .binary64 u) := by
  by_cases h : m < 2 ^ 53 ∧ e ≤ 22
  · obtain ⟨p, hpower, hp, heq⟩ := ofScientific_of_small h
    obtain ⟨hvalue, hfinite⟩ := value_toFloat h.1
    rw [heq]
    cases down with
    | true =>
      have hdiv := Binary.rounded_div (f := .binary64) hfinite hp
        (show value p ≠ 0 by rw [hpower]; positivity)
      change Rounded .binary64 (value _ / value _) _ at hdiv
      rw [hvalue, hpower] at hdiv
      refine ⟨_, ?_, rfl⟩
      rw [if_pos rfl, zpow_neg, zpow_natCast, ← div_eq_mul_inv]
      exact hdiv
    | false =>
      have hmul := Binary.rounded_mul (stored m.toUInt64.toFloat) (stored p) hfinite hp
      change Rounded .binary64 (value _ * value _) _ at hmul
      rw [hvalue, hpower] at hmul
      refine ⟨_, ?_, rfl⟩
      rw [if_neg Bool.false_ne_true, zpow_natCast]
      exact hmul
  · rw [ofScientific_of_great h]
    refine ⟨_, Binary.rounded_ofScientific hm ?_ ?_, rfl⟩
    · have hwide : (2 : Int) ^ Format.binary64.exponentBits = 2048 := rfl
      split <;> omega
    · have hwide : (2 : Int) ^ Format.binary64.exponentBits = 2048 := rfl
      split <;> omega

end Double
end Wireboard
