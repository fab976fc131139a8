import Mathlib.Algebra.Order.Field.Power
import Mathlib.Algebra.Order.Ring.Rat
import Mathlib.Tactic.Linarith
import Mathlib.Tactic.Ring
import Wireboard.Scalar

/-!
# Numbers as rational numbers

A finite number is `± m · 2 ^ e`, a rational number (`value`).  What is stored in a format has its
mantissa filled up unless its exponent is the least one (`canonical_of_unpack`).
-/

namespace Wireboard

open Float.Model (Format UnpackedFloat totalExponent)

namespace Binary

variable {f : Format} {s : UnpackedFloat.Sign} {m : Nat} {e : Int}

/-- The rational number that a finite number is; infinities and what is no number count as zero. -/
def value : UnpackedFloat → Rat
  | .finite s m e _ => (s.apply m : Int) * 2 ^ e
  | _ => 0

/-- Mantissa and exponent as the format stores them: the leading bit of the mantissa is in use unless
the exponent is the least one. -/
structure Canonical (f : Format) (m : Nat) (e : Int) : Prop where
  lt : m < 2 ^ f.mantissaBits
  least : f.minExponent ≤ e
  full : 2 ^ f.mantissaBitsWithoutImplicit ≤ m ∨ e = f.minExponent

/-- The exponent of the largest numbers. -/
def maxExponent (f : Format) : Int :=
  2 ^ f.exponentBits - 2 - (f.exponentBias + f.mantissaBitsWithoutImplicit)

theorem mantissaBits_eq (f : Format) : f.mantissaBits = 1 + f.mantissaBitsWithoutImplicit := rfl

theorem minExponent_eq (f : Format) :
    f.minExponent = 1 - (f.exponentBias + f.mantissaBitsWithoutImplicit : Int) := by
  have hpos : 0 < 2 ^ (f.exponentBits - 1) := Nat.two_pow_pos _
  have hcast : ((2 ^ (f.exponentBits - 1) : Nat) : Int) = 2 ^ (f.exponentBits - 1) := by push_cast; rfl
  simp only [Format.minExponent, Format.exponentBias, mantissaBits_eq]
  omega

theorem canonical_of_unpack (hf : 2 ≤ f.exponentBits) {b : BitVec f.numBits} {hm : 0 < m}
    (h : UnpackedFloat.unpack f b = .finite s m e hm) : Canonical f m e ∧ e ≤ maxExponent f := by
  have hmin := minExponent_eq f
  have hexp : (UnpackedFloat.unpackExponent b).toNat < 2 ^ f.exponentBits := BitVec.isLt _
  have hman : (UnpackedFloat.unpackMantissa b).toNat < 2 ^ f.mantissaBitsWithoutImplicit :=
    BitVec.isLt _
  have hwide : 2 ^ f.mantissaBits = 2 * 2 ^ f.mantissaBitsWithoutImplicit := by
    rw [mantissaBits_eq, Nat.pow_add, Nat.pow_one]
  have hcast : ((2 ^ f.exponentBits : Nat) : Int) = 2 ^ f.exponentBits := by push_cast; rfl
  have hfour : 2 ^ 2 ≤ 2 ^ f.exponentBits := Nat.pow_le_pow_right (by decide) hf
  delta UnpackedFloat.unpack at h
  dsimp only at h
  by_cases hones : UnpackedFloat.unpackExponent b = -1#f.exponentBits
  · rw [if_pos hones] at h
    by_cases hm0 : UnpackedFloat.unpackMantissa b = 0#f.mantissaBitsWithoutImplicit
    · rw [if_pos hm0] at h
      cases h
    · rw [if_neg hm0] at h
      cases h
  rw [if_neg hones] at h
  have hlast : (UnpackedFloat.unpackExponent b).toNat ≠ 2 ^ f.exponentBits - 1 := by
    intro he
    refine hones (BitVec.eq_of_toNat_eq ?_)
    rw [he, BitVec.neg_one_eq_allOnes, BitVec.toNat_allOnes]
  by_cases hzero : UnpackedFloat.unpackExponent b = 0#f.exponentBits
  · rw [if_pos hzero] at h
    by_cases hm0 : UnpackedFloat.unpackMantissa b = 0#f.mantissaBitsWithoutImplicit
    · rw [dif_pos hm0] at h
      cases h
    · rw [dif_neg hm0] at h
      cases h
      have hexp0 : (UnpackedFloat.unpackExponent b).toNat = 0 := by rw [hzero, BitVec.toNat_zero]
      refine ⟨⟨by omega, by omega, .inr (by omega)⟩, ?_⟩
      unfold maxExponent
      omega
  · rw [if_neg hzero] at h
    cases h
    have hexp0 : (UnpackedFloat.unpackExponent b).toNat ≠ 0 := by
      intro he
      exact hzero (BitVec.eq_of_toNat_eq he)
    have hfull : (1#1 ++ UnpackedFloat.unpackMantissa b).toNat =
        2 ^ f.mantissaBitsWithoutImplicit + (UnpackedFloat.unpackMantissa b).toNat := by
      rw [BitVec.toNat_append, ← Nat.shiftLeft_add_eq_or_of_lt hman, Nat.shiftLeft_eq]
      simp
    refine ⟨⟨by omega, by omega, .inl (by omega)⟩, ?_⟩
    unfold maxExponent
    omega

end Binary

end Wireboard
