import Wireboard.Proofs.Number.Value

/-!
# Comparing finite numbers

Finite numbers compare as the rational numbers that they are (`compare_eq_compare_value`), so finite
singles are ordered like them (`Single.lt_iff`, `Single.le_iff`).  Different ones can be equal, as the
two zeros are, and with what is not a number nothing is in order.  The infinite numbers stand above and
below all others (`compare_eq_compare_level`).
-/

namespace Wireboard

open Float.Model (Format UnpackedFloat)

namespace Binary

variable {f : Format} {s : UnpackedFloat.Sign} {m : Nat} {e : Int}

/-- A mantissa takes at most one bit more than another, which is filled up when its exponent is not
the least. -/
theorem lt_of_exponent_lt {n : Nat} {j : Int} (hm : Canonical f m e) (hn : Canonical f n j)
    (hlt : e < j) : (m : Rat) * 2 ^ e < n * 2 ^ j := by
  have hfull : 2 ^ f.mantissaBitsWithoutImplicit ≤ n := by
    rcases hn.full with h | h
    · exact h
    · have := hm.least
      omega
  have hbit : m < 2 * n := by
    have := hm.lt
    rw [mantissaBits_eq, Nat.pow_add, Nat.pow_one] at this
    omega
  calc (m : Rat) * 2 ^ e < (2 * n : Nat) * 2 ^ e := by gcongr
    _ = n * 2 ^ (e + 1) := by rw [zpow_add₀ (by norm_num)]; push_cast; ring
    _ ≤ n * 2 ^ j := by gcongr <;> norm_num; omega

/-- Of two positive numbers in stored form, the one with the greater exponent is the greater. -/
theorem compare_of_canonical {n : Nat} {j : Int} (hm : Canonical f m e) (hn : Canonical f n j) :
    (compare e j).then (compare m n) = compare ((m : Rat) * 2 ^ e) (n * 2 ^ j) := by
  rcases lt_trichotomy e j with h | rfl | h
  · rw [compare_lt_iff_lt.2 h, compare_lt_iff_lt.2 (lt_of_exponent_lt hm hn h), Ordering.lt_then]
  · rw [compare_eq_iff_eq.2 rfl, Ordering.eq_then]
    have hpos : (0 : Rat) < 2 ^ e := by positivity
    rcases lt_trichotomy m n with h | rfl | h
    · rw [compare_lt_iff_lt.2 h, eq_comm, compare_lt_iff_lt]
      gcongr
    · rw [compare_eq_iff_eq.2 rfl, compare_eq_iff_eq.2 rfl]
    · rw [compare_gt_iff_gt.2 h, eq_comm, compare_gt_iff_gt]
      gcongr
  · rw [compare_gt_iff_gt.2 h, compare_gt_iff_gt.2 (lt_of_exponent_lt hn hm h), Ordering.gt_then]

/-- The mantissa and the exponent of the number are in stored form. -/
def Stored (f : Format) : UnpackedFloat → Prop
  | .finite _ m e _ => Canonical f m e
  | _ => True

variable {x y : UnpackedFloat}

theorem value_positive (hm : 0 < m) : value (.finite .positive m e hm) = m * 2 ^ e :=
  congrArg (· * (2 : Rat) ^ e) (Int.cast_natCast m)

theorem value_negative (hm : 0 < m) : value (.finite .negative m e hm) = -(m * 2 ^ e) := by
  have hcast : ((-(m : Int) : Int) : Rat) = -m := by rw [Int.cast_neg, Int.cast_natCast]
  rw [← neg_mul, ← hcast]
  rfl

theorem value_positive_pos (hm : 0 < m) : 0 < value (.finite .positive m e hm) := by
  have hcast : (0 : Rat) < m := by exact_mod_cast hm
  rw [value_positive]
  positivity

theorem value_negative_neg (hm : 0 < m) : value (.finite .negative m e hm) < 0 := by
  rw [value_negative, ← value_positive hm]
  exact neg_lt_zero.2 (value_positive_pos hm)

/-- Changing both signs turns a comparison round. -/
theorem swap_compare (q r : Rat) : (compare q r).swap = compare (-q) (-r) := by
  rcases lt_trichotomy q r with h | rfl | h
  · rw [compare_lt_iff_lt.2 h, compare_gt_iff_gt.2 (neg_lt_neg h)]
    rfl
  · rw [compare_eq_iff_eq.2 rfl, compare_eq_iff_eq.2 rfl]
    rfl
  · rw [compare_gt_iff_gt.2 h, compare_lt_iff_lt.2 (neg_lt_neg h)]
    rfl

/-- Finite numbers compare as the rational numbers that they are. -/
theorem compare_eq_compare_value (hx : Stored f x) (hy : Stored f y) (fx : x.isFinite = true)
    (fy : y.isFinite = true) : x.compare y = some (compare (value x) (value y)) := by
  have hlt : ∀ {a b : Rat}, a < b → some .lt = some (compare a b) := fun h =>
    congrArg some (compare_lt_iff_lt.2 h).symm
  have hgt : ∀ {a b : Rat}, b < a → some .gt = some (compare a b) := fun h =>
    congrArg some (compare_gt_iff_gt.2 h).symm
  cases x with
  | infinity s => cases fx
  | notANumber => cases fx
  | zero s =>
    cases y with
    | infinity t => cases fy
    | notANumber => cases fy
    | zero t => exact congrArg some (compare_eq_iff_eq.2 rfl).symm
    | finite t n j hn =>
      cases t with
      | positive => exact hlt (value_positive_pos hn)
      | negative => exact hgt (value_negative_neg hn)
  | finite s m e hm =>
    cases y with
    | infinity t => cases fy
    | notANumber => cases fy
    | zero t =>
      cases s with
      | positive => exact hgt (value_positive_pos hm)
      | negative => exact hlt (value_negative_neg hm)
    | finite t n j hn =>
      have hcompare := compare_of_canonical hx hy
      cases s with
      | positive =>
        cases t with
        | positive =>
          rw [value_positive, value_positive, ← hcompare]
          rfl
        | negative => exact hgt ((value_negative_neg hn).trans (value_positive_pos hm))
      | negative =>
        cases t with
        | positive => exact hlt ((value_negative_neg hm).trans (value_positive_pos hn))
        | negative =>
          rw [value_negative, value_negative, ← swap_compare, ← hcompare]
          rfl

/-! ## infinite numbers -/

/-- Where a number stands among all numbers. -/
def level : UnpackedFloat → WithBot (WithTop Rat)
  | .infinity .positive => ⊤
  | .infinity .negative => ⊥
  | x => (value x : WithTop Rat)

theorem level_of_finite (fx : x.isFinite = true) : level x = (value x : WithTop Rat) := by
  cases x with
  | infinity s => cases fx
  | _ => rfl

theorem level_lt_top (fx : x.isFinite = true) : level x < ⊤ := by
  rw [level_of_finite fx]
  exact WithBot.coe_lt_coe.2 (WithTop.coe_lt_top _)

theorem bot_lt_level (fx : x.isFinite = true) : ⊥ < level x := by
  rw [level_of_finite fx]
  exact WithBot.bot_lt_coe _

theorem compare_coe (q r : Rat) :
    compare ((q : WithTop Rat) : WithBot (WithTop Rat)) (r : WithTop Rat) = compare q r := by
  rcases lt_trichotomy q r with h | rfl | h
  · rw [compare_lt_iff_lt.2 h, compare_lt_iff_lt]
    exact WithBot.coe_lt_coe.2 (WithTop.coe_lt_coe.2 h)
  · rw [compare_eq_iff_eq.2 rfl, compare_eq_iff_eq.2 rfl]
  · rw [compare_gt_iff_gt.2 h, compare_gt_iff_gt]
    exact WithBot.coe_lt_coe.2 (WithTop.coe_lt_coe.2 h)

/-- Numbers compare as they stand, the infinite ones included. -/
theorem compare_eq_compare_level (hx : Stored f x) (hy : Stored f y) (nx : x ≠ .notANumber)
    (ny : y ≠ .notANumber) : x.compare y = some (compare (level x) (level y)) := by
  have hlt : level x < level y → some .lt = some (compare (level x) (level y)) := fun h =>
    congrArg some (compare_lt_iff_lt.2 h).symm
  have hgt : level y < level x → some .gt = some (compare (level x) (level y)) := fun h =>
    congrArg some (compare_gt_iff_gt.2 h).symm
  have hfinite : x.isFinite = true → y.isFinite = true →
      x.compare y = some (compare (level x) (level y)) := by
    intro fx fy
    rw [compare_eq_compare_value hx hy fx fy, level_of_finite fx, level_of_finite fy, compare_coe]
  cases x with
  | notANumber => exact absurd rfl nx
  | infinity s =>
    cases y with
    | notANumber => exact absurd rfl ny
    | infinity t =>
      cases s with
      | positive => cases t with
        | positive => exact congrArg some (compare_eq_iff_eq.2 rfl).symm
        | negative => exact hgt bot_lt_top
      | negative => cases t with
        | positive => exact hlt bot_lt_top
        | negative => exact congrArg some (compare_eq_iff_eq.2 rfl).symm
    | _ => cases s with
      | positive => exact hgt (level_lt_top rfl)
      | negative => exact hlt (bot_lt_level rfl)
  | zero s =>
    cases y with
    | notANumber => exact absurd rfl ny
    | infinity t => cases t with
      | positive => exact hlt (level_lt_top rfl)
      | negative => exact hgt (bot_lt_level rfl)
    | _ => exact hfinite rfl rfl
  | finite s m e hm =>
    cases y with
    | notANumber => exact absurd rfl ny
    | infinity t => cases t with
      | positive => cases s <;> exact hlt (level_lt_top rfl)
      | negative => cases s <;> exact hgt (bot_lt_level rfl)
    | _ => exact hfinite rfl rfl

theorem compare_notANumber (h : x = .notANumber ∨ y = .notANumber) : x.compare y = none := by
  rcases h with rfl | rfl
  · rfl
  · cases x <;> rfl

theorem compare_eq_lt_iff (hx : Stored f x) (hy : Stored f y) : x.compare y = some .lt ↔
    x ≠ .notANumber ∧ y ≠ .notANumber ∧ level x < level y := by
  by_cases hnan : x = .notANumber ∨ y = .notANumber
  · rw [compare_notANumber hnan]
    exact iff_of_false nofun fun h => hnan.elim h.1 h.2.1
  · rw [not_or] at hnan
    rw [compare_eq_compare_level hx hy hnan.1 hnan.2, Option.some.injEq, compare_lt_iff_lt]
    exact ⟨fun h => ⟨hnan.1, hnan.2, h⟩, fun h => h.2.2⟩

theorem compare_eq_eq_iff (hx : Stored f x) (hy : Stored f y) : x.compare y = some .eq ↔
    x ≠ .notANumber ∧ y ≠ .notANumber ∧ level x = level y := by
  by_cases hnan : x = .notANumber ∨ y = .notANumber
  · rw [compare_notANumber hnan]
    exact iff_of_false nofun fun h => hnan.elim h.1 h.2.1
  · rw [not_or] at hnan
    rw [compare_eq_compare_level hx hy hnan.1 hnan.2, Option.some.injEq, compare_eq_iff_eq]
    exact ⟨fun h => ⟨hnan.1, hnan.2, h⟩, fun h => h.2.2⟩

theorem compare_isLE_iff (hx : Stored f x) (hy : Stored f y) :
    (x.compare y).any (·.isLE) = true ↔
      x ≠ .notANumber ∧ y ≠ .notANumber ∧ level x ≤ level y := by
  by_cases hnan : x = .notANumber ∨ y = .notANumber
  · rw [compare_notANumber hnan]
    exact iff_of_false nofun fun h => hnan.elim h.1 h.2.1
  · rw [not_or] at hnan
    rw [compare_eq_compare_level hx hy hnan.1 hnan.2, Option.any_some, Ordering.isLE_iff_ne_gt,
      compare_gt_iff_gt, not_lt]
    exact ⟨fun h => ⟨hnan.1, hnan.2, h⟩, fun h => h.2.2⟩

end Binary

/-! ## singles -/

namespace Single

/-- The rational number that a single is, if it is finite. -/
def value (x : Float32) : Rat := Binary.value x.toModel.unpack

theorem stored (x : Float32) : Binary.Stored .binary32 x.toModel.unpack := by
  cases h : x.toModel.unpack with
  | finite s m e hm => exact (Binary.canonical_of_unpack (by decide) h).1
  | _ => trivial

variable {x y : Float32}

theorem compare_eq (hx : x.isFinite = true) (hy : y.isFinite = true) :
    x.toModel.unpack.compare y.toModel.unpack = some (compare (value x) (value y)) :=
  Binary.compare_eq_compare_value (stored x) (stored y) hx hy

theorem lt_def : x < y ↔ x.toModel.unpack.compare y.toModel.unpack = some .lt := by
  have h : x < y ↔ (x.toModel.unpack.compare y.toModel.unpack == some .lt) = true :=
    decide_eq_true_iff
  rw [h, beq_iff_eq]

theorem le_def : x ≤ y ↔ (x.toModel.unpack.compare y.toModel.unpack).any (·.isLE) = true :=
  decide_eq_true_iff

theorem lt_iff (hx : x.isFinite = true) (hy : y.isFinite = true) : x < y ↔ value x < value y := by
  rw [lt_def, compare_eq hx hy, Option.some.injEq, compare_lt_iff_lt]

theorem le_iff (hx : x.isFinite = true) (hy : y.isFinite = true) : x ≤ y ↔ value x ≤ value y := by
  rw [le_def, compare_eq hx hy, Option.any_some, Ordering.isLE_iff_ne_gt, compare_gt_iff_gt, not_lt]

theorem lt_iff_level : x < y ↔ x.toModel.unpack ≠ .notANumber ∧ y.toModel.unpack ≠ .notANumber ∧
    Binary.level x.toModel.unpack < Binary.level y.toModel.unpack :=
  lt_def.trans (Binary.compare_eq_lt_iff (stored x) (stored y))

theorem le_iff_level : x ≤ y ↔ x.toModel.unpack ≠ .notANumber ∧ y.toModel.unpack ≠ .notANumber ∧
    Binary.level x.toModel.unpack ≤ Binary.level y.toModel.unpack :=
  le_def.trans (Binary.compare_isLE_iff (stored x) (stored y))

theorem beq_iff_level : (x == y) = true ↔ x.toModel.unpack ≠ .notANumber ∧
    y.toModel.unpack ≠ .notANumber ∧ Binary.level x.toModel.unpack = Binary.level y.toModel.unpack := by
  have h : (x == y) = (x.toModel.unpack.compare y.toModel.unpack == some .eq) := rfl
  rw [h, beq_iff_eq]
  exact Binary.compare_eq_eq_iff (stored x) (stored y)

theorem lt_irrefl (x : Float32) : ¬ x < x := by
  rw [lt_iff_level]
  exact fun h => h.2.2.false

theorem lt_trans {z : Float32} (hxy : x < y) (hyz : y < z) : x < z := by
  rw [lt_iff_level] at hxy hyz ⊢
  exact ⟨hxy.1, hyz.2.1, hxy.2.2.trans hyz.2.2⟩

theorem lt_of_lt_of_le {z : Float32} (hlt : x < y) (hle : y ≤ z) : x < z := by
  rw [lt_iff_level] at hlt ⊢
  rw [le_iff_level] at hle
  exact ⟨hlt.1, hle.2.1, hlt.2.2.trans_le hle.2.2⟩

protected theorem not_lt_of_le (h : x ≤ y) : ¬ y < x := fun hlt =>
  lt_irrefl y (lt_of_lt_of_le hlt h)

protected theorem le_of_lt (h : x < y) : x ≤ y := by
  rw [lt_iff_level] at h
  rw [le_iff_level]
  exact ⟨h.1, h.2.1, h.2.2.le⟩

protected theorem le_trans {z : Float32} (hxy : x ≤ y) (hyz : y ≤ z) : x ≤ z := by
  rw [le_iff_level] at hxy hyz ⊢
  exact ⟨hxy.1, hyz.2.1, hxy.2.2.trans hyz.2.2⟩

/-- What stands in an order is a number. -/
theorem beq_self_of_le (h : x ≤ y) : (x == x) = true ∧ (y == y) = true := by
  rw [le_iff_level] at h
  exact ⟨beq_iff_level.2 ⟨h.1, h.1, rfl⟩, beq_iff_level.2 ⟨h.2.1, h.2.1, rfl⟩⟩

theorem pos_iff (hx : x.isFinite = true) : 0.0 < x ↔ 0 < value x := by
  have hzero : value 0.0 = 0 := by decide +kernel
  rw [lt_iff (by decide +kernel) hx, hzero]

theorem nonneg_iff (hx : x.isFinite = true) : 0.0 ≤ x ↔ 0 ≤ value x := by
  have hzero : value 0.0 = 0 := by decide +kernel
  rw [le_iff (by decide +kernel) hx, hzero]

theorem not_lt_iff (hx : x.isFinite = true) (hy : y.isFinite = true) : ¬ x < y ↔ y ≤ x := by
  rw [lt_iff hx hy, le_iff hy hx, not_lt]

/-- What is a number and neither below a finite number nor above another one is finite. -/
theorem isFinite_of_not_lt {lo hi : Float32} (hlo : lo.isFinite = true) (hhi : hi.isFinite = true)
    (hx : (x == x) = true) (hge : ¬ x < lo) (hle : ¬ hi < x) : x.isFinite = true := by
  rw [lt_def] at hge hle
  change x.toModel.unpack.beq x.toModel.unpack = true at hx
  change x.toModel.unpack.isFinite = true
  change lo.toModel.unpack.isFinite = true at hlo
  change hi.toModel.unpack.isFinite = true at hhi
  generalize x.toModel.unpack = u at *
  generalize lo.toModel.unpack = l at *
  generalize hi.toModel.unpack = h at *
  cases u with
  | zero s => rfl
  | finite s m e hm => rfl
  | notANumber => cases hx
  | infinity s =>
    cases s with
    | positive =>
      cases h with
      | zero t => exact absurd rfl hle
      | finite t n j hn => exact absurd rfl hle
      | infinity t => cases hhi
      | notANumber => cases hhi
    | negative =>
      cases l with
      | zero t => exact absurd rfl hge
      | finite t n j hn => exact absurd rfl hge
      | infinity t => cases hlo
      | notANumber => cases hlo

section Clamp

variable {lo hi : Float32}

theorem lt_clamp (hxy : x < y) (hx : x < hi) : x < Scalar.clamp lo hi y := by
  unfold Scalar.clamp
  split
  · next hlo => exact lt_trans hxy hlo
  · split
    · exact hx
    · exact hxy

theorem le_clamp (hxy : x ≤ y) (hx : x ≤ hi) : x ≤ Scalar.clamp lo hi y := by
  unfold Scalar.clamp
  split
  · next hlo => exact Single.le_trans hxy (Single.le_of_lt hlo)
  · split
    · exact hx
    · exact hxy

theorem clamp_lt (hyx : y < x) (hx : lo < x) : Scalar.clamp lo hi y < x := by
  unfold Scalar.clamp
  split
  · exact hx
  · split
    · next hhi => exact lt_trans hhi hyx
    · exact hyx

theorem clamp_le (hyx : y ≤ x) (hx : lo ≤ x) : Scalar.clamp lo hi y ≤ x := by
  unfold Scalar.clamp
  split
  · exact hx
  · split
    · next hhi => exact Single.le_trans (Single.le_of_lt hhi) hyx
    · exact hyx

end Clamp

/-- Numbers, the infinite ones included, are moved into finite bounds. -/
theorem clamp_between {lo hi : Float32} (hlo : lo.isFinite = true) (hhi : hi.isFinite = true)
    (hle : lo ≤ hi) (hx : (x == x) = true) :
    (Scalar.clamp lo hi x).isFinite = true ∧ lo ≤ Scalar.clamp lo hi x ∧
      Scalar.clamp lo hi x ≤ hi := by
  have hrefl : ∀ {y : Float32}, y.isFinite = true → y ≤ y := fun hy => (le_iff hy hy).2 le_rfl
  unfold Scalar.clamp
  by_cases hlt : x < lo
  · rw [if_pos hlt]
    exact ⟨hlo, hrefl hlo, hle⟩
  · by_cases hgt : hi < x
    · rw [if_neg hlt, if_pos hgt]
      exact ⟨hhi, hle, hrefl hhi⟩
    · rw [if_neg hlt, if_neg hgt]
      have hfinite := isFinite_of_not_lt hlo hhi hx hlt hgt
      exact ⟨hfinite, (not_lt_iff hfinite hlo).1 hlt, (not_lt_iff hhi hfinite).1 hgt⟩

end Single

end Wireboard
