import Wireboard.Proofs.Anchor
import Wireboard.Proofs.Number.Root

/-!
# Discs and distances

An anchor is looked for in a disc by comparing the square of its distance with the square of the radius;
no root is taken.  The search for the nearest anchor compares the distance itself, which is a root that has
been rounded.

* `Anchor.isWithin_of_dist_lt`: what is nearer than the radius is in the disc, whatever the numbers are;
* `Anchor.isWithin_eq`: so the two tests agree except on the edge, if the square of the radius is
  neither too great nor too small for the format.  On the edge, distances that differ before they are
  rounded are told apart by their squares, and what is there need not be in the disc;
* `Anchor.isWithin_of_edge`: on a level with the pointer, or right above or below it, what is on the
  edge is in the disc;
* `Anchor.firstWithin_by_distance`: what this comes to for the first anchor of a list.
-/

namespace Wireboard

open Single (Magnitude Squarable)

namespace Point

variable {p q : Point Float32}

theorem isFinite_iff : p.isFinite = true ↔ p.x.isFinite = true ∧ p.y.isFinite = true :=
  Bool.and_eq_true_iff

theorem magnitude_distSq (hp : p.isFinite = true) (hq : q.isFinite = true) :
    Magnitude (p.distSq q) := by
  rw [isFinite_iff] at hp hq
  exact (Single.magnitude_mul_self (Single.sub_ne_notANumber hp.1 hq.1)).add
    (Single.magnitude_mul_self (Single.sub_ne_notANumber hp.2 hq.2))

end Point

namespace Anchor

variable {p : Point Float32} {r : Float32} {a : Anchor Float32} {as : List (Anchor Float32)}

/-- What is nearer than the radius is in the disc. -/
theorem isWithin_of_dist_lt (h : p.dist a.place < r) : isWithin p r a = true :=
  decide_eq_true (Single.le_mul_self_of_sqrt_lt h)

theorem firstWithin_isSome_of_dist_lt (ha : a ∈ as) (h : p.dist a.place < r) :
    (firstWithin p r as).isSome = true :=
  List.find?_isSome.2 ⟨a, ha, isWithin_of_dist_lt h⟩

/-- Where something is near enough to snap to, something is in the disc. -/
theorem firstWithin_isSome_of_nearestWithin (h : (nearestWithin p r as).isSome = true) :
    (firstWithin p r as).isSome = true := by
  obtain ⟨a, ha, hlt⟩ := nearestWithin_isSome_iff.1 h
  exact firstWithin_isSome_of_dist_lt ha hlt

/-- If the square of the radius overflows, everything is in the disc. -/
theorem isWithin_of_infinite (hp : p.isFinite = true) (ha : a.place.isFinite = true)
    (hr : (r * r).toModel.unpack = .infinity .positive) : isWithin p r a = true :=
  decide_eq_true ((Point.magnitude_distSq hp ha).le_infinite hr)

section finite

variable (hp : p.isFinite = true) (ha : a.place.isFinite = true) (hrr : (r * r).isFinite = true)

include hp ha hrr

theorem finite_of_isWithin (h : isWithin p r a = true) :
    (p.distSq a.place).isFinite = true ∧ 0 ≤ Single.value (p.distSq a.place) ∧
      Single.value (p.distSq a.place) ≤ Single.value (r * r) := by
  have hle : p.distSq a.place ≤ r * r := of_decide_eq_true h
  obtain ⟨hfinite, h0⟩ := (Point.magnitude_distSq hp ha).finite_of_le hrr hle
  exact ⟨hfinite, h0, (Single.le_iff hfinite hrr).1 hle⟩

/-- What is in the disc is at most as far as the root of the square of the radius. -/
theorem dist_le_sqrt_of_isWithin (h : isWithin p r a = true) : p.dist a.place ≤ (r * r).sqrt := by
  obtain ⟨hfinite, h0, hle⟩ := finite_of_isWithin hp ha hrr h
  rw [Point.dist]
  exact (Single.le_iff (Single.nearestRoot_sqrt hfinite h0).finite
    (Single.nearestRoot_sqrt hrr (h0.trans hle)).finite).2 (Single.sqrt_le_sqrt hfinite hrr h0 hle)

end finite

section squarable

variable (hp : p.isFinite = true) (ha : a.place.isFinite = true) (hr : Squarable r)
  (h0 : 0 ≤ Single.value r)

include hp ha hr h0

theorem value_dist_le_of_isWithin (h : isWithin p r a = true) :
    (p.dist a.place).isFinite = true ∧ Single.value (p.dist a.place) ≤ Single.value r := by
  obtain ⟨hfinite, h0', hle⟩ := finite_of_isWithin hp ha hr.not_huge h
  refine ⟨(Single.nearestRoot_sqrt hfinite h0').finite, ?_⟩
  have hroot := (hr.sqrt_cases hfinite h0').1 hle
  rwa [abs_of_nonneg h0] at hroot

/-- The disc is told by distances, and by their squares on its edge. -/
theorem isWithin_eq : isWithin p r a = (decide (p.dist a.place < r) ||
    p.dist a.place == r && decide (p.distSq a.place ≤ r * r)) := by
  rw [Bool.eq_iff_iff, Bool.or_eq_true, Bool.and_eq_true, decide_eq_true_iff]
  constructor
  · intro h
    obtain ⟨hfinite, hle⟩ := value_dist_le_of_isWithin hp ha hr h0 h
    rw [Single.lt_iff hfinite hr.finite, Single.beq_iff hfinite hr.finite]
    exact hle.lt_or_eq.imp_right fun heq => ⟨heq, h⟩
  · rintro (h | ⟨-, h⟩)
    · exact isWithin_of_dist_lt h
    · exact h

/-- What is on the edge is in the disc if only one square counts for it. -/
theorem isWithin_of_edge (hedge : (p.dist a.place == r) = true)
    (hlevel : Single.value r = 0 ∨ Single.value p.x = Single.value a.place.x ∨
      Single.value p.y = Single.value a.place.y) : isWithin p r a = true := by
  have hS := Point.magnitude_distSq hp ha
  rcases hS.cases with hinfinite | ⟨hS, hS0⟩
  · have hne : (p.dist a.place == r) = false :=
      Single.infinite_beq_finite (Single.sqrt_infinite hinfinite) hr.finite
    rw [hne] at hedge
    cases hedge
  have hroot : Single.value (p.distSq a.place).sqrt = Single.value r :=
    (Single.beq_iff (Single.nearestRoot_sqrt hS hS0).finite hr.finite).1 hedge
  refine decide_eq_true ((Single.le_iff hS hr.not_huge).2 ?_)
  obtain ⟨hx, hy⟩ := Single.isFinite_of_add hS
  have hdx := Single.isFinite_of_mul_self hx
  have hdy := Single.isFinite_of_mul_self hy
  rcases hlevel with hzero | hlevel | hlevel
  · rw [Single.value_eq_zero_of_sqrt hS hS0 (hroot.trans hzero)]
    exact (Single.rounded_mul_self_of_finite hr.not_huge).nonneg (sq_nonneg _)
  · have hsum := Single.value_zero_add hS (Single.value_mul_self_of_zero hx
      (Single.value_sub_of_eq hdx hlevel))
    exact Single.mul_self_le_of_sqrt_eq hy hr h0 hS hsum hroot
  · have hsum := Single.value_add_zero hS (Single.value_mul_self_of_zero hy
      (Single.value_sub_of_eq hdy hlevel))
    exact Single.mul_self_le_of_sqrt_eq hx hr h0 hS hsum hroot

end squarable

/-- **The first anchor in a disc, told by distances.**  A radius whose square is finite and loses no
digits gives the anchors that are nearer, and those on the edge whose squares are not greater; these are
all of the edge if they are on a level with the pointer or right above or below it. -/
theorem firstWithin_by_distance (hp : p.isFinite = true) (has : ∀ a ∈ as, a.place.isFinite = true)
    (hr : r.isFinite = true) (h0 : 0.0 ≤ r) :
    (Squarable r → firstWithin p r as = as.find? fun a => decide (p.dist a.place < r) ||
        p.dist a.place == r && decide (p.distSq a.place ≤ r * r)) ∧
      (Squarable r → (∀ a ∈ as, (p.dist a.place == r) = true →
          Single.value r = 0 ∨ (p.x == a.place.x) = true ∨ (p.y == a.place.y) = true) →
        firstWithin p r as = as.find? fun a => decide (p.dist a.place ≤ r)) ∧
      ((r * r).isFinite = false → firstWithin p r as = as.head?) ∧
      ((r * r).isFinite = true → ∀ a, firstWithin p r as = some a →
        p.dist a.place ≤ (r * r).sqrt) ∧
      (∀ a ∈ as, p.dist a.place < r → (firstWithin p r as).isSome = true) ∧
      ((nearestWithin p r as).isSome = true → (firstWithin p r as).isSome = true) := by
  have h0 := (Single.nonneg_iff hr).1 h0
  refine ⟨fun hsq => ?_, fun hsq hedge => ?_, fun hrr => ?_, fun hrr a ha => ?_,
    fun a ha hlt => firstWithin_isSome_of_dist_lt ha hlt, firstWithin_isSome_of_nearestWithin⟩
  · exact List.find?_congr fun a ha => isWithin_eq hp (has a ha) hsq h0
  · refine List.find?_congr fun a ha => ?_
    rw [Bool.eq_iff_iff, decide_eq_true_iff]
    constructor
    · intro h
      obtain ⟨hfinite, hle⟩ := value_dist_le_of_isWithin hp (has a ha) hsq h0 h
      exact (Single.le_iff hfinite hr).2 hle
    · intro hle
      obtain ⟨hfinite, -⟩ := (Point.magnitude_distSq hp (has a ha)).sqrt.finite_of_le hr hle
      rcases ((Single.le_iff hfinite hr).1 hle).lt_or_eq with hlt | heq
      · exact isWithin_of_dist_lt ((Single.lt_iff hfinite hr).2 hlt)
      · have hbeq : (p.dist a.place == r) = true := (Single.beq_iff hfinite hr).2 heq
        obtain ⟨hpx, hpy⟩ := Point.isFinite_iff.1 hp
        obtain ⟨hax, hay⟩ := Point.isFinite_iff.1 (has a ha)
        refine isWithin_of_edge hp (has a ha) hsq h0 hbeq ((hedge a ha hbeq).imp_right ?_)
        exact Or.imp (Single.beq_iff hpx hax).1 (Single.beq_iff hpy hay).1
  · have hinfinite := ((Single.magnitude_of_finite hr h0).mul_self_cases).resolve_right fun h => by
      have hfinite : (r * r).isFinite = true := h.2.2.finite
      rw [hfinite] at hrr
      cases hrr
    cases as with
    | nil => rfl
    | cons a as =>
      exact List.find?_cons_of_pos (isWithin_of_infinite hp (has a List.mem_cons_self) hinfinite)
  · have hmem := List.mem_of_find?_eq_some ha
    exact dist_le_sqrt_of_isWithin hp (has a hmem) hrr (List.find?_some ha)

/-- On the edge, and on a level with the pointer. -/
theorem firstWithin_by_distance_level :
    let p : Point Float32 := ⟨10.0, 4.0⟩
    let as : List (Anchor Float32) := [⟨"a", .input, ⟨0.0, 4.0⟩⟩, ⟨"b", .input, ⟨9.0, 3.0⟩⟩]
    firstWithin p 10.0 as = some ⟨"a", .input, ⟨0.0, 4.0⟩⟩ := by
  intro p as
  have hfind : (as.find? fun a => decide (p.dist a.place ≤ 10.0)) =
      some ⟨"a", .input, ⟨0.0, 4.0⟩⟩ := by decide +kernel
  rw [← hfind]
  exact (firstWithin_by_distance (by decide +kernel) (by decide +kernel) (by decide +kernel)
    (by decide +kernel)).2.1 (by decide +kernel) (by decide +kernel)

/-- A radius that is the distance itself does not reach, and others reach too far: their squares
overflow, or have hardly any digits left. -/
theorem not_firstWithin_by_dist :
    let a : Anchor Float32 := ⟨"a", .input, ⟨0.0, 0.0⟩⟩
    (Point.dist ⟨1.0, 1.0⟩ a.place = 1.4142135 ∧ firstWithin ⟨1.0, 1.0⟩ 1.4142135 [a] = none) ∧
      ((2.0e19 : Float32) < Point.dist ⟨3.0e38, 0.0⟩ a.place ∧
        firstWithin ⟨3.0e38, 0.0⟩ 2.0e19 [a] = some a) ∧
      ((2.8e-23 : Float32) < Point.dist ⟨3.7e-23, 0.0⟩ a.place ∧
        firstWithin ⟨3.7e-23, 0.0⟩ 2.8e-23 [a] = some a) := by
  decide +kernel

end Anchor

end Wireboard
