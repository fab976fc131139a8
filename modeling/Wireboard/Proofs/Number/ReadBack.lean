import Wireboard.Proofs.Number.Reading
import Wireboard.Proofs.Number.Scientific

/-!
# Printed numbers are read back

* `Interval.value_eq_of_contains`: whatever lies in the interval of a number is rounded to it;
* `Decimal.shortest_spec`: the search for the shortest decimal is over before its grids are, so what it
  finds lies in the interval;
* `Layout.plainLiteral_spec`: plain notation, with all its zeros, stands for the same number;
* `Reading.number?_doubleText`: so a finite double is read back from what an editor shows of it.
-/

namespace Wireboard

open Float.Model (Format UnpackedFloat)

/-! ## digits -/

namespace Digit

theorem value_append (ds es : List Digit) : value (ds ++ es) = value ds * 10 ^ es.length + value es := by
  induction es generalizing ds with
  | nil => simp [value]
  | cons e es ih =>
    have hcons : value (e :: es) = e.val * 10 ^ es.length + value es := by
      rw [← List.singleton_append, ih, value, List.foldl_cons, List.foldl_nil, Nat.mul_zero, Nat.zero_add]
    rw [List.append_cons, ih, value_append_singleton, hcons, List.length_cons, pow_succ]
    ring

theorem value_replicate_zero (n : Nat) : value (List.replicate n zero) = 0 := by
  induction n with
  | zero => rfl
  | succ n ih =>
    rw [List.replicate_succ', value_append_singleton, ih]
    rfl

end Digit

/-! ## intervals -/

namespace Decimal.Interval

open Binary (Rounded Canonical Grid)

variable {i : Decimal.Interval} {q : Rat}

theorem contains_bounds (h : i.contains q = true) :
    i.lo ≤ q ∧ q ≤ i.hi ∧ (q = i.lo ∨ q = i.hi → i.closed = true) := by
  unfold contains at h
  split at h
  · next hclosed =>
    rw [Bool.and_eq_true, decide_eq_true_iff, decide_eq_true_iff] at h
    exact ⟨h.1, h.2, fun _ => hclosed⟩
  · rw [Bool.and_eq_true, decide_eq_true_iff, decide_eq_true_iff] at h
    refine ⟨h.1.le, h.2.le, ?_⟩
    rintro (rfl | rfl)
    · exact absurd h.1 (lt_irrefl _)
    · exact absurd h.2 (lt_irrefl _)

variable {f : Format} {m : Nat} {e : Int}

theorem closed_iff : (of f m e).closed = true ↔ Even m := by
  rw [Nat.even_iff]
  exact beq_iff_eq

theorem value_eq_of_grid {u : UnpackedFloat} (hq : (of f m e).contains q = true)
    (h : Rounded f q u) (hgrid : Grid f q e) : Binary.value u = m * 2 ^ e := by
  obtain ⟨hlo, hhi, hends⟩ := contains_bounds hq
  have hlo' := le_lo f m e
  have hhi' : (of f m e).hi = m * 2 ^ e + 2 ^ e / 2 := rfl
  refine h.value_eq_of_near hgrid (k := m) ?_ fun htie => ?_
  · rw [Int.cast_natCast, abs_le]
    constructor <;> linarith
  · rw [Int.cast_natCast] at htie
    rw [Int.even_coe_nat]
    refine closed_iff.1 (hends ?_)
    rcases abs_eq (by positivity) |>.1 htie with htie | htie
    · left
      linarith
    · right
      linarith

/-- Below the least number of a binade the steps are half as long, and so is the interval. -/
theorem value_eq_of_below {u : UnpackedFloat} (hm : m = 2 ^ f.mantissaBitsWithoutImplicit)
    (he : f.minExponent < e) (hq : (of f m e).contains q = true) (hlt : q < m * 2 ^ e)
    (h : Rounded f q u) : Binary.value u = m * 2 ^ e := by
  obtain ⟨hlo, -, -⟩ := contains_bounds hq
  have hbits := Binary.mantissaBits_eq f
  have hstep : (0 : Rat) < 2 ^ (e - 1) := by positivity
  have htwice : (2 : Rat) ^ e = 2 * 2 ^ (e - 1) := by
    rw [zpow_sub₀ (by norm_num), zpow_one]
    ring
  have hlo' : (of f m e).lo = m * 2 ^ e - 2 ^ e / 2 / 2 := by
    simp only [of]
    rw [if_pos ⟨hm, he⟩]
  have hcast : (m : Rat) = 2 ^ f.mantissaBitsWithoutImplicit := by rw [hm]; push_cast; rfl
  have hone : (1 : Rat) ≤ m := by rw [hcast]; exact one_le_pow₀ (by norm_num)
  rw [hlo', htwice] at hlo
  rw [htwice] at hlt ⊢
  have hq0 : 0 ≤ q := by nlinarith
  have hfull : 2 ^ (e - 1 + f.mantissaBitsWithoutImplicit : Int) ≤ q := by
    rw [zpow_add₀ (by norm_num), zpow_natCast, ← hcast]
    nlinarith
  have hgrid : Grid f q (e - 1) := by
    refine ⟨by omega, ?_, .inl ?_⟩
    · rw [abs_of_nonneg hq0, hbits, Nat.cast_add, Nat.cast_one, ← add_assoc, sub_add_cancel,
        zpow_add₀ (by norm_num), zpow_natCast, ← hcast, htwice]
      linarith
    · rwa [abs_of_nonneg hq0]
  have hvalue : (m : Rat) * (2 * 2 ^ (e - 1)) = (2 * m : Int) * 2 ^ (e - 1) := by
    push_cast
    ring
  rw [hvalue] at hlo hlt ⊢
  refine h.value_eq_of_near hgrid ?_ fun _ => even_two_mul _
  rw [abs_le]
  constructor <;> linarith

/-- Whatever lies in the interval of a number is rounded to it. -/
theorem value_eq_of_contains {u : UnpackedFloat} (hm : 0 < m) (hc : Canonical f m e)
    (hq : (of f m e).contains q = true) (h : Rounded f q u) : Binary.value u = m * 2 ^ e := by
  obtain ⟨hlo, hhi, -⟩ := contains_bounds hq
  have hlo' := le_lo f m e
  have hhi' : (of f m e).hi = m * 2 ^ e + 2 ^ e / 2 := rfl
  have hunit : (0 : Rat) < 2 ^ e := by positivity
  have hone : (1 : Rat) ≤ m := by exact_mod_cast hm
  have hle : (m : Rat) + 1 ≤ 2 ^ f.mantissaBits := by exact_mod_cast hc.lt
  have hq0 : 0 ≤ q := by nlinarith
  have hupper : q < 2 ^ (e + f.mantissaBits : Int) := by
    rw [zpow_add₀ (by norm_num), zpow_natCast]
    nlinarith
  by_cases hlow : 2 ^ (e + f.mantissaBitsWithoutImplicit : Int) ≤ q ∨ e = f.minExponent
  · refine value_eq_of_grid hq h ⟨hc.least, ?_, ?_⟩
    · rwa [abs_of_nonneg hq0]
    · rwa [abs_of_nonneg hq0]
  · obtain ⟨hbelow, hne⟩ := not_or.1 hlow
    have hge := hc.full.resolve_right hne
    have hleast := hc.least
    rw [not_le, zpow_add₀ (by norm_num), zpow_natCast, mul_comm] at hbelow
    -- only the interval of the least number of the binade reaches so far down
    have hm2 : m = 2 ^ f.mantissaBitsWithoutImplicit := by
      by_contra hne'
      have hgt : ((2 ^ f.mantissaBitsWithoutImplicit : Nat) : Rat) + 1 ≤ m := by
        exact_mod_cast Nat.lt_of_le_of_ne hge (Ne.symm hne')
      push_cast at hgt
      nlinarith
    have hcast : (m : Rat) = 2 ^ f.mantissaBitsWithoutImplicit := by rw [hm2]; push_cast; rfl
    exact value_eq_of_below hm2 (by omega) hq (hcast ▸ hbelow) h

end Decimal.Interval

/-! ## the search -/

namespace Decimal

namespace Interval

variable {t : Tie} {i : Interval} {k : Int}

theorem exists_onGrid? (h : i.contains ((i.value / (10 : Rat) ^ k).floor.toNat * (10 : Rat) ^ k) = true) :
    ∃ c, i.onGrid? t k = some c := by
  simp only [onGrid?, h]
  generalize i.contains (((i.value / (10 : Rat) ^ k).floor.toNat + 1 : Nat) * (10 : Rat) ^ k) = above
  cases above with
  | false => exact ⟨_, rfl⟩
  | true =>
    dsimp only
    split
    · exact ⟨_, rfl⟩
    · split
      · exact ⟨_, rfl⟩
      · split <;> exact ⟨_, rfl⟩

/-- A grid that is fine enough has a point in the interval. -/
theorem contains_below (hpos : 0 ≤ i.value) (hhi : i.value < i.hi)
    (hk : (10 : Rat) ^ k ≤ i.value - i.lo) :
    i.contains ((i.value / (10 : Rat) ^ k).floor.toNat * (10 : Rat) ^ k) = true := by
  have hunit : (0 : Rat) < 10 ^ k := by positivity
  have hnonneg : 0 ≤ (i.value / (10 : Rat) ^ k).floor := by
    rw [Rat.le_floor_iff, Int.cast_zero]
    exact div_nonneg hpos hunit.le
  have hcast : (((i.value / (10 : Rat) ^ k).floor.toNat : Nat) : Rat) = (i.value / (10 : Rat) ^ k).floor := by
    exact_mod_cast Int.toNat_of_nonneg hnonneg
  have hle : ((i.value / (10 : Rat) ^ k).floor : Rat) * 10 ^ k ≤ i.value :=
    (le_div_iff₀ hunit).1 (Rat.floor_le _)
  have hlt : i.value < ((i.value / (10 : Rat) ^ k).floor + 1) * 10 ^ k :=
    (div_lt_iff₀ hunit).1 (by exact_mod_cast Rat.lt_floor_add_one _)
  rw [hcast, contains]
  split
  · rw [Bool.and_eq_true, decide_eq_true_iff, decide_eq_true_iff]
    constructor <;> linarith
  · rw [Bool.and_eq_true, decide_eq_true_iff, decide_eq_true_iff]
    constructor <;> linarith

theorem search_spec (hpos : 0 ≤ i.value) (hhi : i.value < i.hi) :
    ∀ {n : Nat} {k : Int}, 0 < n → (10 : Rat) ^ (k - n + 1) ≤ i.value - i.lo →
      ∃ c j, i.search t n k = ofNat c j ∧ i.contains (c * (10 : Rat) ^ j) = true ∧ k - n < j := by
  intro n
  induction n with
  | zero => intro k hn; exact absurd hn (lt_irrefl 0)
  | succ n ih =>
    intro k _ hk
    rw [search]
    split
    · next c hc => exact ⟨c, k, rfl, contains_of_onGrid? hc, by omega⟩
    · next hnone =>
      have hn : 0 < n := by
        refine Nat.pos_of_ne_zero ?_
        rintro rfl
        rw [show k - (0 + 1 : Nat) + 1 = k by omega] at hk
        obtain ⟨c, hc⟩ := exists_onGrid? (t := t) (contains_below hpos hhi hk)
        rw [hc] at hnone
        cases hnone
      rw [show k - (n + 1 : Nat) + 1 = k - 1 - n + 1 by omega] at hk
      obtain ⟨c, j, hsearch, hcontains, hj⟩ := ih hn hk
      exact ⟨c, j, hsearch, hcontains, by omega⟩

end Interval

/-- The search ends at a decimal in the interval. -/
theorem shortest_spec {m : Nat} {e : Int} (hm : 0 < m) (hb : Bounded m e) (hlog : m.log2 ≤ 52)
    (t : Tie) (f : Format) :
    ∃ c k, shortest t f m e = ofNat c k ∧
      (Interval.of f m e).contains (c * (10 : Rat) ^ k) = true ∧ -400 ≤ k := by
  obtain ⟨hlo, hhi⟩ := hb
  have hunit : (0 : Rat) < 2 ^ e := by positivity
  have hquarter : (2 : Rat) ^ (e - 2) = 2 ^ e / 4 := by
    rw [zpow_sub₀ (by norm_num)]
    norm_num
  have hbelow : (2 : Rat) ^ e / 4 ≤ (Interval.of f m e).value - (Interval.of f m e).lo := by
    simp only [Interval.of]
    split <;> linarith
  have habove : (Interval.of f m e).value < (Interval.of f m e).hi := by
    simp only [Interval.of]
    linarith
  have hgrid : (10 : Rat) ^ (((m.log2 : Int) + e + 1) * 30103 / 100000 + 1 - (24 : Nat) + 1) ≤
      2 ^ (e - 2) := tenPow_le_twoPow (fun _ => by omega) fun _ => by omega
  rw [hquarter] at hgrid
  obtain ⟨c, k, hsearch, hcontains, hk⟩ := Interval.search_spec (t := t)
    (show 0 ≤ (Interval.of f m e).value by simp only [Interval.of]; positivity) habove (by decide)
    (hgrid.trans hbelow)
  exact ⟨c, k, hsearch, hcontains, by omega⟩

end Decimal

namespace Layout

theorem fraction_plainLiteral (negative : Bool) (c : Nat) (k : Int) :
    (display.plainLiteral negative (Decimal.ofNat c k)).fraction =
      List.replicate (-(k + (Digit.ofNat c).length)).toNat Digit.zero ++
        (Digit.ofNat c).drop (k + (Digit.ofNat c).length).toNat := by
  simp only [plainLiteral, Decimal.ofNat, display, Bool.and_false, Bool.false_eq_true, if_false]

theorem length_fraction_plainLiteral (negative : Bool) (c : Nat) (k : Int) :
    (display.plainLiteral negative (Decimal.ofNat c k)).fraction.length = (-k).toNat := by
  have hlen : 0 < (Digit.ofNat c).length := List.length_pos_iff.2 (Digit.ofNat_ne_nil c)
  rw [fraction_plainLiteral, List.length_append, List.length_replicate, List.length_drop]
  omega

/-- The digits before and after the point are those of the number and zeros. -/
theorem significand_plainLiteral (negative : Bool) (c : Nat) (k : Int) :
    (display.plainLiteral negative (Decimal.ofNat c k)).significand = c * 10 ^ k.toNat := by
  have hfraction := fraction_plainLiteral negative c k
  have hwhole : (display.plainLiteral negative (Decimal.ofNat c k)).whole =
      if (k + (Digit.ofNat c).length).toNat = 0 then [Digit.zero] else
        (Digit.ofNat c).take (k + (Digit.ofNat c).length).toNat ++
          List.replicate ((k + (Digit.ofNat c).length).toNat - (Digit.ofNat c).length) Digit.zero := rfl
  have hvalue := Digit.value_ofNat c
  have hlen : 0 < (Digit.ofNat c).length := List.length_pos_iff.2 (Digit.ofNat_ne_nil c)
  generalize Digit.ofNat c = ds at hfraction hwhole hvalue hlen
  rw [Literal.significand, hwhole, hfraction, ← hvalue]
  by_cases hpoint : (k + ds.length).toNat = 0
  · -- the point comes first
    have hzero : Digit.value [Digit.zero] = 0 := rfl
    rw [if_pos hpoint, hpoint, List.drop_zero, Digit.value_append, Digit.value_append, hzero,
      Digit.value_replicate_zero, show k.toNat = 0 by omega]
    ring
  · rw [if_neg hpoint, show (-(k + ds.length)).toNat = 0 by omega, List.replicate_zero,
      List.nil_append]
    rcases le_total k 0 with hk | hk
    · rw [show (k + ds.length).toNat - ds.length = 0 by omega, List.replicate_zero,
        List.append_nil, List.take_append_drop, show k.toNat = 0 by omega, pow_zero, Nat.mul_one]
    · rw [List.take_of_length_le (by omega), List.drop_eq_nil_of_le (by omega), List.append_nil,
        Digit.value_append, Digit.value_replicate_zero, List.length_replicate, Nat.add_zero,
        show (k + ds.length).toNat - ds.length = k.toNat by omega]

/-- In plain notation nothing is lost. -/
theorem plainLiteral_spec (negative : Bool) (c : Nat) (k : Int) :
    let n := display.plainLiteral negative (Decimal.ofNat c k)
    n.fraction.length = (-k).toNat ∧
      (n.significand : Rat) * 10 ^ (-(n.fraction.length : Int)) = c * 10 ^ k := by
  intro n
  have hlength : n.fraction.length = (-k).toNat := length_fraction_plainLiteral negative c k
  have hsignificand : n.significand = c * 10 ^ k.toNat := significand_plainLiteral negative c k
  refine ⟨hlength, ?_⟩
  rw [hsignificand, hlength]
  rcases le_total 0 k with hk | hk
  · rw [show (-k).toNat = 0 by omega, Nat.cast_zero, neg_zero, zpow_zero, mul_one]
    obtain ⟨j, rfl⟩ := Int.eq_ofNat_of_zero_le hk
    push_cast
    rfl
  · rw [show k.toNat = 0 by omega, pow_zero, Nat.mul_one, show -((-k).toNat : Int) = k by omega]

end Layout

/-! ## reading back -/

namespace Double

open Binary (Canonical)

theorem unpack_neg {x : Float} {s : UnpackedFloat.Sign} {m : Nat} {e : Int} {hm : 0 < m}
    (hx : x.toModel.unpack = .finite s m e hm) :
    (-x).toModel.unpack = .finite (-s) m e hm := by
  obtain ⟨hc, hmax⟩ := Binary.canonical_of_unpack (by decide) hx
  have hpack := Binary.unpack_pack (f := .binary64) (u := .finite (-s) m e hm) (by decide) hc rfl
    (Binary.abs_value_lt hm hc hmax)
  change UnpackedFloat.unpack .binary64 (UnpackedFloat.pack .binary64 x.toModel.unpack.neg) = _
  rw [hx]
  exact hpack

end Double

namespace Layout

open Binary (Canonical)

/-- The literal of a positive number is nearest to that number. -/
theorem unpack_ofScientific {m : Nat} {e : Int} (hm : 0 < m) (hc : Canonical .binary64 m e)
    (hmax : e ≤ Binary.maxExponent .binary64) (negative : Bool) :
    let n := display.plainLiteral negative (Decimal.shortest .up .binary64 m e)
    (Float.ofScientific n.significand (n.scale - n.fraction.length < 0)
      (n.scale - n.fraction.length).natAbs).toModel.unpack = .finite .positive m e hm := by
  intro n
  have hlog : m.log2 < 53 := (Nat.log2_lt hm.ne').2 hc.lt
  have hleast : -1074 ≤ e := hc.least
  have hgreatest : e ≤ 971 := hmax
  obtain ⟨c, k, hshortest, hcontains, hk⟩ := Decimal.shortest_spec hm
    (show Decimal.Bounded m e from ⟨by omega, by omega⟩) (by omega) .up .binary64
  obtain ⟨hlength, hvalue⟩ := plainLiteral_spec negative c k
  rw [← hshortest] at hlength hvalue
  change n.fraction.length = (-k).toNat at hlength
  change (n.significand : Rat) * 10 ^ (-(n.fraction.length : Int)) = c * 10 ^ k at hvalue
  have hscale : n.scale = 0 := rfl
  have hsignificand : n.significand ≠ 0 := by
    intro hzero
    have hlo := (Decimal.Interval.contains_bounds hcontains).1
    have hpos := (Decimal.Interval.lo_pos .binary64 hm e).trans_le hlo
    rw [← hvalue, hzero, Nat.cast_zero, zero_mul] at hpos
    exact lt_irrefl _ hpos
  obtain ⟨u, hrounded, hunpack⟩ := Double.rounded_ofScientific (Nat.pos_of_ne_zero hsignificand)
    (n.scale - n.fraction.length < 0) (e := (n.scale - n.fraction.length).natAbs) (by omega)
  have hexponent : (if decide (n.scale - n.fraction.length < 0) then
      -((n.scale - n.fraction.length).natAbs : Int) else (n.scale - n.fraction.length).natAbs) =
        -(n.fraction.length : Int) := by
    simp only [decide_eq_true_iff]
    split <;> omega
  rw [hexponent, hvalue] at hrounded
  have hu := Binary.eq_finite_of_value hrounded.stored hrounded.finite hm hc
    (Decimal.Interval.value_eq_of_contains hm hc hcontains hrounded)
  rw [hunpack, hu]
  exact Binary.unpack_pack (by decide) hc rfl (Binary.abs_value_lt hm hc hmax)

theorem nearest_of_double? {x : Float} {n : Literal} (h : display.double? x = some n) :
    n.nearest = x := by
  refine Double.eq_of_unpack ?_
  unfold double? at h
  generalize hu : x.toModel.unpack = u at h
  cases u with
  | notANumber => cases h
  | infinity s => cases h
  | zero s =>
    obtain rfl := Option.some.inj h
    cases s <;> rfl
  | finite s m e hm =>
    obtain rfl := Option.some.inj h
    obtain ⟨hc, hmax⟩ := Binary.canonical_of_unpack (by decide) hu
    have hread := unpack_ofScientific hm hc hmax (s == .negative)
    cases s with
    | positive => exact hread
    | negative => exact Double.unpack_neg hread

end Layout

namespace Reading

/-- **A finite double is read back from its text**, from every bit of it. -/
theorem number?_doubleText {x : Float} (hx : x.isFinite = true) :
    number? (Layout.display.doubleText x).toList = some x := by
  obtain ⟨n, hn⟩ := Option.isSome_iff_exists.1 ((Layout.isSome_double? (l := .display) x).trans hx)
  have hnearest := Layout.nearest_of_double? hn
  have htext : (Layout.display.doubleText x).toList = n.text := by
    rw [Layout.doubleText, String.toList_ofList, Layout.text]
    rw [Layout.double?] at hn
    rw [hn]
  have hread := literal?_text (Layout.wellFormed_of_double? hn)
  rw [← htext] at hread
  rw [number?_of_solid (fun c => Layout.solid_of_mem_doubleText) hread (hnearest ▸ hx), hnearest]

end Reading

end Wireboard
