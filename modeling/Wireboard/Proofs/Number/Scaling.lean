import Wireboard.Proofs.Number.Root

/-!
# Scaling step by step

A number is moved to its product with a factor by adding the difference of the two, which is rounded
both when it is taken and when it is added.

* `Single.lt_add_sub`, `Single.add_sub_lt`: the sum lies on the side of the other number, however near
  the two are (`Single.le_add_sub`, `Single.add_sub_le`).
* `Single.lt_mul`, `Single.mul_one_div_lt`: a product with a factor above one, or with the reciprocal of
  one, is another number than before, as long as the mantissa is filled up.
-/

namespace Wireboard

namespace Single

open Binary (Rounded)

variable {x y : Float32}

/-! ### there and back -/

/-- To add what is missing to a greater number may lead beyond all finite ones. -/
theorem add_sub_cases (hx : x.isFinite = true) (hy : y.isFinite = true) (hx0 : 0 ≤ value x)
    (hle : value x ≤ value y) : (x + (y - x)).toModel.unpack = .infinity .positive ∨
      (x + (y - x)).isFinite = true ∧ 0 ≤ value (y - x) := by
  have hsub := rounded_sub_of_nonneg hy hx (hx0.trans hle) hx0
  have hd0 : 0 ≤ value (y - x) := hsub.nonneg (sub_nonneg.2 hle)
  have hsum := (magnitude_of_finite hx hx0).add (magnitude_of_finite hsub.finite hd0)
  exact hsum.cases.imp_right fun h => ⟨h.1, hd0⟩

theorem le_add_sub (hx : x.isFinite = true) (hy : y.isFinite = true) (hx0 : 0 ≤ value x)
    (hle : value x ≤ value y) : x ≤ x + (y - x) := by
  rcases add_sub_cases hx hy hx0 hle with hinfinite | ⟨hsum, hd0⟩
  · exact Single.le_of_lt (lt_infinite hx hinfinite)
  · rw [le_iff hx hsum]
    exact (rounded_add_of_finite hsum).le_of_stored (stored x) hx (le_add_of_nonneg_right hd0)

theorem lt_add_sub (hx : x.isFinite = true) (hy : y.isFinite = true) (hx0 : 0 ≤ value x)
    (hlt : value x < value y) : x < x + (y - x) := by
  rcases add_sub_cases hx hy hx0 hlt.le with hinfinite | ⟨hsum, -⟩
  · exact lt_infinite hx hinfinite
  · have hretrace := (abs_le.1 (abs_add_sub_le hsum)).1
    rw [abs_of_pos (sub_pos.2 hlt)] at hretrace
    rw [lt_iff hx hsum]
    linarith

/-- To add what is missing to a smaller number leads down, and not below zero. -/
theorem rounded_add_sub_of_le (hx : x.isFinite = true) (hy : y.isFinite = true) (hy0 : 0 ≤ value y)
    (hle : value y ≤ value x) :
    Rounded .binary32 (value x + value (y - x)) (x + (y - x)).toModel.unpack ∧ value (y - x) ≤ 0 := by
  have hsub := rounded_sub_of_nonneg hy hx hy0 (hy0.trans hle)
  have hd0 : value (y - x) ≤ 0 :=
    hsub.mono (Binary.rounded_zero _ .positive) (sub_nonpos.2 hle)
  have habs : |value (y - x)| ≤ value x := by
    refine hsub.abs_le_of_stored (stored x) hx ?_
    rw [abs_of_nonpos (sub_nonpos.2 hle)]
    change -(value y - value x) ≤ value x
    linarith
  refine ⟨rounded_pack_of_abs_le (Binary.rounded_add (stored x) (stored _) hx hsub.finite) hx ?_, hd0⟩
  have := (abs_le.1 habs).1
  rw [abs_of_nonneg (by linarith)]
  linarith

theorem add_sub_le (hx : x.isFinite = true) (hy : y.isFinite = true) (hy0 : 0 ≤ value y)
    (hle : value y ≤ value x) : x + (y - x) ≤ x := by
  obtain ⟨hrounded, hd0⟩ := rounded_add_sub_of_le hx hy hy0 hle
  rw [le_iff hrounded.finite hx]
  exact hrounded.mono (Binary.rounded_of_stored (stored x) hx) (by change _ ≤ value x; linarith)

theorem add_sub_lt (hx : x.isFinite = true) (hy : y.isFinite = true) (hy0 : 0 ≤ value y)
    (hlt : value y < value x) : x + (y - x) < x := by
  have hsum := (rounded_add_sub_of_le hx hy hy0 hlt.le).1.finite
  have hretrace := (abs_le.1 (abs_add_sub_le hsum)).2
  rw [abs_of_neg (sub_neg.2 hlt)] at hretrace
  rw [lt_iff hsum hx]
  linarith

/-! ### factors -/

/-- A product with a number that is not above one is finite. -/
theorem rounded_mul_of_le_one (hx : x.isFinite = true) (hy : y.isFinite = true) (hx0 : 0 ≤ value x)
    (hy0 : 0 ≤ value y) (hy1 : value y ≤ 1) :
    Rounded .binary32 (value x * value y) (x * y).toModel.unpack := by
  refine rounded_pack_of_abs_le (Binary.rounded_mul (stored x) (stored y) hx hy) hx ?_
  rw [abs_of_nonneg (mul_nonneg hx0 hy0)]
  exact mul_le_of_le_one_right hx0 hy1

theorem value_mul_le (hx : x.isFinite = true) (hy : y.isFinite = true) (hx0 : 0 ≤ value x)
    (hy0 : 0 ≤ value y) (hy1 : value y ≤ 1) : value (x * y) ≤ value x :=
  (rounded_mul_of_le_one hx hy hx0 hy0 hy1).mono (Binary.rounded_of_stored (stored x) hx)
    (mul_le_of_le_one_right hx0 hy1)

theorem value_le_mul (hx : x.isFinite = true) (hy : y.isFinite = true) (hx0 : 0 ≤ value x)
    (hy1 : 1 ≤ value y) (h : (x * y).isFinite = true) : value x ≤ value (x * y) := by
  rcases mul_cases hx hy hx0 (zero_le_one.trans hy1) with hinfinite | hrounded
  · change (x * y).toModel.unpack.isFinite = true at h
    rw [hinfinite] at h
    cases h
  · exact hrounded.le_of_stored (stored x) hx (le_mul_of_one_le_right hx0 hy1)

/-- Singles above one are above it by the last bit of its mantissa at least. -/
theorem succ_one_le (hx : x.isFinite = true) (h : 1.0 < x) : 1 + 1 / 2 ^ 23 ≤ value x := by
  have hone : value 1.0 = 1 := by decide +kernel
  rw [lt_iff (by decide +kernel) hx, hone] at h
  have hcanonical : Binary.Canonical .binary32 (2 ^ 23) (-23) := ⟨by decide, by decide, .inl (by decide)⟩
  have hsucc := Binary.succ_le_of_lt hcanonical (stored x) hx (by norm_num; exact h)
  norm_num at hsucc ⊢
  exact hsucc

/-- A number that has a filled up mantissa becomes greater when it is multiplied by one above one. -/
theorem lt_mul (hx : x.isFinite = true) (hnormal : 1 / 2 ^ 126 ≤ value x) (hy : y.isFinite = true)
    (h : 1.0 < y) : x < x * y := by
  have hy1 := succ_one_le hy h
  have hx0 : 0 < value x := (by positivity : (0 : Rat) < 1 / 2 ^ 126).trans_le hnormal
  rcases mul_cases hx hy hx0.le (by linarith) with hinfinite | hrounded
  · exact lt_infinite hx hinfinite
  · rw [lt_iff hx hrounded.finite]
    have hproduct : value x * (1 + 1 / 2 ^ 23) ≤ value x * value y := by gcongr
    have habs : |value x * value y| = value x * value y := abs_of_nonneg (by nlinarith)
    have herror := (abs_le.1 (hrounded.abs_sub_le_of_full (by
      rw [habs]
      change (2 : Rat) ^ (-126 : Int) ≤ _
      norm_num at hnormal hproduct ⊢
      linarith))).1
    rw [habs] at herror
    change -(value x * value y / 2 ^ 24) ≤ value (x * y) - value x * value y at herror
    norm_num at herror hproduct
    linarith

/-- The reciprocal of a single above one: it is rounded, and it is not above one. -/
theorem rounded_one_div (hx : x.isFinite = true) (h : 1.0 < x) :
    Rounded .binary32 (1 / value x) (1.0 / x).toModel.unpack := by
  have hone : value 1.0 = 1 := by decide +kernel
  have hx1 := succ_one_le hx h
  rw [← hone]
  refine rounded_div (by decide +kernel) hx (by linarith) ?_
  rw [hone, abs_of_nonneg (by positivity), div_le_iff₀ (by linarith)]
  linarith

/-- The reciprocal of a single above one is below one by two of the last bits of its mantissa. -/
theorem one_div_le (hx : x.isFinite = true) (h : 1.0 < x) :
    0 ≤ value (1.0 / x) ∧ value (1.0 / x) ≤ 1 - 1 / 2 ^ 23 := by
  have hx1 := succ_one_le hx h
  have hlast : value (1.0 / 1.00000012) = 1 - 1 / 2 ^ 23 := by decide +kernel
  have hvalue : value 1.00000012 = 1 + 1 / 2 ^ 23 := by decide +kernel
  refine ⟨(rounded_one_div hx h).nonneg (by positivity), ?_⟩
  rw [← hlast]
  refine (rounded_one_div hx h).mono (rounded_one_div (by decide +kernel) (by decide +kernel)) ?_
  rw [hvalue]
  gcongr

/-- A number that has a filled up mantissa becomes smaller when it is multiplied by such a reciprocal. -/
theorem mul_one_div_lt (hx : x.isFinite = true) (hnormal : 1 / 2 ^ 126 ≤ value x)
    (hy : y.isFinite = true) (h : 1.0 < y) : x * (1.0 / y) < x := by
  obtain ⟨hf0, hf1⟩ := one_div_le hy h
  have hf := (rounded_one_div hy h).finite
  have hx0 : 0 < value x := (by positivity : (0 : Rat) < 1 / 2 ^ 126).trans_le hnormal
  have hproduct : value x * value (1.0 / y) ≤ value x * (1 - 1 / 2 ^ 23) := by gcongr
  have hrounded := rounded_mul_of_le_one hx hf hx0.le hf0 (hf1.trans (by norm_num))
  rw [lt_iff hrounded.finite hx]
  have herror := (abs_le.1 hrounded.abs_sub_le).2
  rw [abs_of_nonneg (mul_nonneg hx0.le hf0)] at herror
  change value (x * (1.0 / y)) - value x * value (1.0 / y) ≤
    value x * value (1.0 / y) / 2 ^ 24 + 2 ^ (-149 : Int) / 2 at herror
  norm_num at herror hproduct hnormal
  linarith

end Single

end Wireboard
