import Mathlib.Tactic.NormNum
import Wireboard.Number.Layout
import Wireboard.Proofs.Number.Value

/-!
# Shortest decimals begin with a digit that counts

What the search for a shortest decimal gives is never empty and never begins with a zero, except for
the number zero itself.  So a number is written without leading zeros in every layout.

* `Interval.isProper_search`: a grid point that is found lies in the interval, so it is not zero, and
  the last grid, on which the number is cut, is finer than the number (`tenPow_le`).
* `Bounded`: the magnitudes for which the last grid is fine enough, those of all singles and doubles
  among them (`bounded_of_unpack`).
* `Layout.wellFormed_of_single?`, `Layout.wellFormed_of_double?`: literals have digits where they must
  have some, and no leading zeros.
-/

namespace Wireboard

open Float.Model (Format UnpackedFloat)

/-! ## digits -/

namespace Digit

theorem ofNat_ne_nil (n : Nat) : ofNat n ≠ [] := by
  rw [ofNat]
  split <;> simp

theorem head?_ofNat {n : Nat} (hn : n ≠ 0) : (ofNat n).head? ≠ some zero := by
  fun_induction ofNat n with
  | case1 n h =>
    intro hzero
    exact hn (congrArg Fin.val (Option.some.inj hzero))
  | case2 n h ih =>
    obtain ⟨d, ds, hds⟩ := List.exists_cons_of_ne_nil (ofNat_ne_nil (n / 10))
    have hhead := ih (by omega)
    rw [hds] at hhead ⊢
    exact hhead

end Digit

namespace Decimal

/-- There is a digit, and the first one is not a zero unless the decimal is zero. -/
def IsProper (d : Decimal) : Prop :=
  d.digits ≠ [] ∧ (d.digits.head? = some Digit.zero → d = zero)

theorem isProper_zero : zero.IsProper := ⟨by simp [zero], fun _ => rfl⟩

theorem isProper_ofNat {n : Nat} (hn : n ≠ 0) (k : Int) : (ofNat n k).IsProper :=
  ⟨Digit.ofNat_ne_nil n, fun h => absurd h (Digit.head?_ofNat hn)⟩

/-! ## the search -/

namespace Interval

variable {t : Tie} {i : Interval} {k : Int}

theorem contains_of_onGrid? {c : Nat} (h : i.onGrid? t k = some c) :
    i.contains (c * (10 : Rat) ^ k) = true := by
  simp only [onGrid?] at h
  split at h
  · next hbelow habove =>
    split at h
    · exact Option.some.inj h ▸ hbelow
    · split at h
      · exact Option.some.inj h ▸ habove
      · split at h
        · exact Option.some.inj h ▸ hbelow
        · exact Option.some.inj h ▸ habove
  · next hbelow _ => exact Option.some.inj h ▸ hbelow
  · next _ habove => exact Option.some.inj h ▸ habove
  · cases h

theorem ne_zero_of_onGrid? (hlo : 0 < i.lo) {c : Nat} (h : i.onGrid? t k = some c) : c ≠ 0 := by
  rintro rfl
  have hzero := contains_of_onGrid? h
  rw [Nat.cast_zero, zero_mul, contains] at hzero
  split at hzero
  · simp [not_le.2 hlo] at hzero
  · simp [not_lt.2 hlo.le] at hzero

theorem isProper_search (hlo : 0 < i.lo) :
    ∀ {n : Nat} {k : Int}, (10 : Rat) ^ (k - n) ≤ i.value → (i.search t n k).IsProper := by
  intro n
  induction n with
  | zero =>
    intro k hk
    rw [Nat.cast_zero, sub_zero] at hk
    have hone : (1 : Rat) ≤ i.value / (10 : Rat) ^ k := by
      rwa [le_div_iff₀ (by positivity), one_mul]
    have hfloor : (1 : Int) ≤ (i.value / (10 : Rat) ^ k).floor := Rat.le_floor_iff.2 (by simpa)
    exact isProper_ofNat (by omega) k
  | succ n ih =>
    intro k hk
    rw [search]
    split
    · next c hc => exact isProper_ofNat (ne_zero_of_onGrid? hlo hc) k
    · refine ih ?_
      rwa [show k - 1 - (n : Int) = k - (n + 1 : Nat) by omega]

/-- The interval reaches no further down than half a step. -/
theorem le_lo (f : Format) (m : Nat) (e : Int) : (m : Rat) * 2 ^ e - 2 ^ e / 2 ≤ (of f m e).lo := by
  have hunit : (0 : Rat) < 2 ^ e := by positivity
  simp only [of]
  split <;> linarith

theorem lo_pos (f : Format) {m : Nat} (hm : 0 < m) (e : Int) : 0 < (of f m e).lo := by
  have hlo := le_lo f m e
  have hunit : (0 : Rat) < 2 ^ e := by positivity
  have hone : (1 : Rat) ≤ m := by exact_mod_cast hm
  nlinarith

end Interval

/-! ## the last grid -/

/-- The magnitude is in a range that is wide enough for doubles. -/
def Bounded (m : Nat) (e : Int) : Prop := -1100 ≤ m.log2 + e ∧ m.log2 + e ≤ 1100

/-- `10 ^ 3` is less than `2 ^ 10`, and `10 ^ 28` is more than `2 ^ 93`. -/
theorem tenPow_le_twoPow {a b : Int} (hpos : 0 ≤ b → a * 10 ≤ 3 * b) (hneg : b < 0 → a * 93 ≤ 28 * b) :
    (10 : Rat) ^ a ≤ (2 : Rat) ^ b := by
  rcases le_or_gt 0 b with hb | hb
  · obtain ⟨n, rfl⟩ := Int.eq_ofNat_of_zero_le hb
    have hexp : a * 10 ≤ (3 * n : Nat) := by have := hpos hb; omega
    refine le_of_pow_le_pow_left₀ (by decide : 10 ≠ 0) (by positivity) ?_
    calc ((10 : Rat) ^ a) ^ 10
        = 10 ^ (a * 10) := by rw [zpow_mul]; rfl
      _ ≤ 10 ^ ((3 * n : Nat) : Int) := zpow_le_zpow_right₀ (by norm_num) hexp
      _ = (10 ^ 3) ^ n := by rw [zpow_natCast, pow_mul]
      _ ≤ (2 ^ 10) ^ n := by gcongr; norm_num
      _ = ((2 : Rat) ^ (n : Int)) ^ 10 := by rw [zpow_natCast, ← pow_mul, ← pow_mul, mul_comm]
  · obtain ⟨n, rfl⟩ := Int.exists_eq_neg_ofNat hb.le
    have hexp : a * 93 ≤ -(28 * n : Nat) := by have := hneg hb; omega
    refine le_of_pow_le_pow_left₀ (by decide : 93 ≠ 0) (by positivity) ?_
    calc ((10 : Rat) ^ a) ^ 93
        = 10 ^ (a * 93) := by rw [zpow_mul]; rfl
      _ ≤ 10 ^ (-((28 * n : Nat) : Int)) := zpow_le_zpow_right₀ (by norm_num) hexp
      _ = ((10 ^ 28) ^ n)⁻¹ := by rw [zpow_neg, zpow_natCast, pow_mul]
      _ ≤ ((2 ^ 93) ^ n)⁻¹ := by gcongr; norm_num
      _ = ((2 : Rat) ^ (-(n : Int))) ^ 93 := by
        rw [zpow_neg, zpow_natCast, inv_pow, ← pow_mul, ← pow_mul, mul_comm]

/-- The last grid of the search is no coarser than the power of two below the number.  The factor
`0.30103` stands for the logarithm of two. -/
theorem tenPow_le {l : Int} (hlo : -1100 ≤ l) (hhi : l ≤ 1100) :
    (10 : Rat) ^ ((l + 1) * 30103 / 100000 - 23) ≤ (2 : Rat) ^ l :=
  tenPow_le_twoPow (fun _ => by omega) fun _ => by omega

theorem twoPow_le {m : Nat} (hm : 0 < m) (e : Int) : (2 : Rat) ^ (m.log2 + e : Int) ≤ m * 2 ^ e := by
  have hlog : (2 : Rat) ^ m.log2 ≤ m := by exact_mod_cast Nat.log2_self_le hm.ne'
  rw [zpow_add₀ (by norm_num), zpow_natCast]
  gcongr

theorem isProper_shortest {m : Nat} {e : Int} (hm : 0 < m) (hb : Bounded m e) (t : Tie) (f : Format) :
    (shortest t f m e).IsProper := by
  have hgrid := tenPow_le hb.1 hb.2
  refine Interval.isProper_search (Interval.lo_pos f hm e) ?_
  rw [show ((m.log2 : Int) + e + 1) * 30103 / 100000 + 1 - (24 : Nat) =
    ((m.log2 : Int) + e + 1) * 30103 / 100000 - 23 by omega]
  exact hgrid.trans (twoPow_le hm e)

theorem bounded_of_unpack {f : Format} {b : BitVec f.numBits} {s : UnpackedFloat.Sign} {m : Nat}
    {e : Int} {hm : 0 < m} (h : UnpackedFloat.unpack f b = .finite s m e hm)
    (hf : 2 ≤ f.exponentBits) (hlo : f.exponentBias + f.mantissaBitsWithoutImplicit ≤ 1100)
    (hhi : 2 ^ f.exponentBits ≤ 1100 + f.exponentBias) : Bounded m e := by
  obtain ⟨hcan, hmax⟩ := Binary.canonical_of_unpack hf h
  have hleast := hcan.least
  have hlog : m.log2 < 1 + f.mantissaBitsWithoutImplicit := (Nat.log2_lt hm.ne').2 hcan.lt
  have hcast : ((2 ^ f.exponentBits : Nat) : Int) = 2 ^ f.exponentBits := by push_cast; rfl
  rw [Binary.minExponent_eq] at hleast
  rw [Binary.maxExponent] at hmax
  constructor <;> omega

end Decimal

/-! ## literals -/

/-- The literal is a number of JSON: digits before the point, no zeros in front of them, and digits
in the exponent. -/
structure Literal.WellFormed (n : Literal) : Prop where
  whole_ne_nil : n.whole ≠ []
  no_leading_zero : n.whole.head? = some Digit.zero → n.whole.length = 1
  exponent_ne_nil : ∀ s ds, n.exponent = some (s, ds) → ds ≠ []

namespace Layout

variable {l : Layout} {d : Decimal}

theorem wellFormed_plainLiteral (hd : d.IsProper) (negative : Bool) :
    (l.plainLiteral negative d).WellFormed := by
  obtain ⟨c, ds, hds⟩ := List.exists_cons_of_ne_nil hd.1
  have hexp : ∀ s es, (l.plainLiteral negative d).exponent = some (s, es) → es ≠ [] :=
    fun _ _ h => nomatch h
  by_cases hpoint : d.point.toNat = 0
  · have hwhole : (l.plainLiteral negative d).whole = [Digit.zero] := if_pos hpoint
    exact ⟨by simp [hwhole], fun _ => by rw [hwhole, List.length_singleton], hexp⟩
  · obtain ⟨n, hn⟩ := Nat.exists_eq_succ_of_ne_zero hpoint
    have hwhole : (l.plainLiteral negative d).whole =
        c :: (ds.take n ++ List.replicate (n + 1 - d.digits.length) Digit.zero) := by
      rw [plainLiteral]
      simp only [hn, hds]
      rfl
    refine ⟨by simp [hwhole], fun hhead => ?_, hexp⟩
    -- the one proper decimal that begins with a zero has one digit before the point
    have hzero : d = Decimal.zero := hd.2 (by rw [hwhole] at hhead; rw [hds]; exact hhead)
    subst hzero
    rfl

theorem wellFormed_scientificLiteral (hd : d.IsProper) (negative : Bool) :
    (l.scientificLiteral negative d).WellFormed := by
  obtain ⟨c, ds, hds⟩ := List.exists_cons_of_ne_nil hd.1
  have hwhole : (l.scientificLiteral negative d).whole = [c] := by rw [scientificLiteral, hds]; rfl
  refine ⟨by simp [hwhole], fun _ => by rw [hwhole, List.length_singleton], fun s es h => ?_⟩
  have hes : Digit.ofNat _ = es := congrArg Prod.snd (Option.some.inj h)
  exact hes ▸ Digit.ofNat_ne_nil _

theorem wellFormed_literal (hd : d.IsProper) (negative : Bool) :
    (l.literal negative d).WellFormed := by
  unfold literal
  split
  · exact wellFormed_plainLiteral hd negative
  · exact wellFormed_scientificLiteral hd negative

theorem isSome_finite? (f : Format) (u : UnpackedFloat) : (l.finite? f u).isSome = u.isFinite := by
  cases u <;> rfl

theorem isSome_single? (x : Float32) : (l.single? x).isSome = x.isFinite :=
  isSome_finite? ..

theorem isSome_double? (x : Float) : (l.double? x).isSome = x.isFinite :=
  isSome_finite? ..

theorem wellFormed_of_finite? {f : Format} {u : UnpackedFloat} {n : Literal}
    (hu : ∀ s m e hm, u = .finite s m e hm → Decimal.Bounded m e) (h : l.finite? f u = some n) :
    n.WellFormed := by
  cases u with
  | notANumber => cases h
  | infinity s => cases h
  | zero s =>
    cases h
    exact wellFormed_literal Decimal.isProper_zero _
  | finite s m e hm =>
    cases h
    exact wellFormed_literal (Decimal.isProper_shortest hm (hu s m e hm rfl) _ _) _

theorem wellFormed_of_single? {x : Float32} {n : Literal} (h : l.single? x = some n) :
    n.WellFormed :=
  wellFormed_of_finite? (fun _ _ _ _ hu => Decimal.bounded_of_unpack hu (by decide) (by decide)
    (by decide)) h

theorem wellFormed_of_double? {x : Float} {n : Literal} (h : l.double? x = some n) :
    n.WellFormed :=
  wellFormed_of_finite? (fun _ _ _ _ hu => Decimal.bounded_of_unpack hu (by decide) (by decide)
    (by decide)) h

end Layout

end Wireboard
