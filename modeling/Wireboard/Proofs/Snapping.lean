import Mathlib.Data.List.Induction
import Wireboard.Proofs.Anchor
import Wireboard.Proofs.Number.Comparison

/-!
# The nearest anchor

What the search for the nearest anchor finds, whatever the distances are: some may be infinite, and some
no numbers.

* `Anchor.IsNearest`: the first of the anchors at the least distance, if that is less than the radius;
* `Anchor.Best`: what the search knows after some of the anchors.  The bound that the next one is held
  against is the radius or the distance of the best anchor so far, and none so far is below it
  (`Best.nearer`);
* `Anchor.nearestWithin_filter`: anchors that are not nearer than the radius might as well not be there;
* `Anchor.nearestWithin_spec`: the search finds nothing or the nearest anchor.
-/

namespace Wireboard

namespace Anchor

variable {p : Point Float32} {r d d' : Float32} {a b : Anchor Float32} {as : List (Anchor Float32)}
  {best : Option (Anchor Float32 × Float32)}

/-! ## what is found -/

/-- `a` is nearer to `p` than `r`, at the distance `d`; none of the anchors is nearer, and none before
it is as near. -/
structure IsNearest (p : Point Float32) (r : Float32) (as : List (Anchor Float32))
    (a : Anchor Float32) (d : Float32) : Prop where
  dist : d = p.dist a.place
  near : d < r
  least : ∀ b ∈ as, ¬ p.dist b.place < d
  first : ∃ before after, as = before ++ a :: after ∧
    ∀ b ∈ before, (p.dist b.place == d) = false

theorem IsNearest.mem (h : IsNearest p r as a d) : a ∈ as := by
  obtain ⟨before, after, rfl, -⟩ := h.first
  exact List.mem_append_right _ List.mem_cons_self

/-- Distances that are numbers and not less than each other are equal. -/
theorem IsNearest.beq (h : IsNearest p r as a d) (h' : IsNearest p r as b d') :
    (p.dist a.place == d') = true := by
  have hge := h.least b h'.mem
  have hle := h'.least a h.mem
  rw [← h'.dist] at hge
  rw [← h.dist] at hle ⊢
  have hnumber := (Single.lt_iff_level.1 h.near).1
  have hnumber' := (Single.lt_iff_level.1 h'.near).1
  rw [Single.lt_iff_level] at hge hle
  refine Single.beq_iff_level.2 ⟨hnumber, hnumber', le_antisymm ?_ ?_⟩
  · exact not_lt.1 fun hlt => hge ⟨hnumber', hnumber, hlt⟩
  · exact not_lt.1 fun hlt => hle ⟨hnumber, hnumber', hlt⟩

/-- There is one nearest anchor at most. -/
theorem IsNearest.unique (h : IsNearest p r as a d) (h' : IsNearest p r as b d') :
    a = b ∧ d = d' := by
  have hab : a = b := by
    obtain ⟨before, after, has, hbefore⟩ := h.first
    obtain ⟨before', after', has', hbefore'⟩ := h'.first
    -- of the two, the later one would have the other one before it, at the same distance
    rcases List.append_eq_append_iff.1 (has.symm.trans has') with
      ⟨mid, hmid, hrest⟩ | ⟨mid, hmid, hrest⟩
    · cases mid with
      | nil => exact (List.cons.inj hrest).1
      | cons c mid =>
        obtain ⟨rfl, -⟩ := List.cons.inj hrest
        have hmem : a ∈ before' := hmid ▸ List.mem_append_right _ List.mem_cons_self
        exact absurd ((hbefore' a hmem).symm.trans (h.beq h')) (by decide)
    · cases mid with
      | nil => exact (List.cons.inj hrest).1.symm
      | cons c mid =>
        obtain ⟨rfl, -⟩ := List.cons.inj hrest
        have hmem : b ∈ before := hmid ▸ List.mem_append_right _ List.mem_cons_self
        exact absurd ((hbefore b hmem).symm.trans (h'.beq h)) (by decide)
  exact ⟨hab, by rw [h.dist, h'.dist, hab]⟩

/-! ## the search -/

/-- What the search knows when it has seen these anchors: none of them is nearer than the radius, or
which one is the nearest. -/
inductive Best (p : Point Float32) (r : Float32) (as : List (Anchor Float32)) :
    Option (Anchor Float32 × Float32) → Prop where
  | nothing (far : ∀ a ∈ as, ¬ p.dist a.place < r) : Best p r as none
  | found {a : Anchor Float32} {d : Float32} (nearest : IsNearest p r as a d) :
    Best p r as (some (a, d))

/-- None of the anchors seen so far is below the bound, and the bound is not above the radius. -/
theorem Best.bound (h : Best p r as best) :
    (∀ b ∈ as, ¬ p.dist b.place < (best.map (·.2)).getD r) ∧
      ∀ x, x < (best.map (·.2)).getD r → x < r := by
  cases h with
  | nothing far => exact ⟨far, fun _ hx => hx⟩
  | found nearest => exact ⟨nearest.least, fun _ hx => Single.lt_trans hx nearest.near⟩

/-- An anchor below the bound is nearer than all before it. -/
theorem isNearest_of_lt {bound : Float32} (hfar : ∀ b ∈ as, ¬ p.dist b.place < bound)
    (hlt : p.dist a.place < bound) (hr : p.dist a.place < r) :
    IsNearest p r (as ++ [a]) a (p.dist a.place) where
  dist := rfl
  near := hr
  least b hb h := by
    rcases List.mem_append.1 hb with hb | hb
    · exact hfar b hb (Single.lt_trans h hlt)
    · rw [List.mem_singleton.1 hb] at h
      exact Single.lt_irrefl _ h
  first := by
    refine ⟨as, [], rfl, fun b hb => Bool.eq_false_iff.2 fun heq => hfar b hb ?_⟩
    rw [Single.beq_iff_level] at heq
    rw [Single.lt_iff_level] at hlt ⊢
    exact ⟨heq.1, hlt.2.1, heq.2.2.trans_lt hlt.2.2⟩

theorem IsNearest.append (h : IsNearest p r as a d) (hb : ¬ p.dist b.place < d) :
    IsNearest p r (as ++ [b]) a d where
  dist := h.dist
  near := h.near
  least c hc := by
    rcases List.mem_append.1 hc with hc | hc
    · exact h.least c hc
    · rwa [List.mem_singleton.1 hc]
  first := by
    obtain ⟨before, after, rfl, hbefore⟩ := h.first
    exact ⟨before, after ++ [b], by rw [List.append_assoc, List.cons_append], hbefore⟩

/-- One more anchor. -/
theorem Best.nearer (h : Best p r as best) (a : Anchor Float32) :
    Best p r (as ++ [a]) (nearer p r best a) := by
  obtain ⟨hfar, hbound⟩ := h.bound
  unfold Anchor.nearer
  split
  · next hlt => exact .found (isNearest_of_lt hfar hlt (hbound _ hlt))
  · next hnot =>
    cases h with
    | nothing far =>
      refine .nothing fun b hb => ?_
      rcases List.mem_append.1 hb with hb | hb
      · exact far b hb
      · rwa [List.mem_singleton.1 hb]
    | found nearest => exact .found (nearest.append hnot)

theorem best_nearestWithin (p : Point Float32) (r : Float32) (as : List (Anchor Float32)) :
    Best p r as (nearestWithin p r as) := by
  induction as using List.reverseRecOn with
  | nil => exact .nothing nofun
  | append_singleton as a ih =>
    rw [nearestWithin, List.foldl_append]
    exact ih.nearer a

/-! ## anchors that do not count -/

/-- An anchor that is not nearer than the radius is passed over. -/
theorem Best.nearer_of_far (h : Best p r as best) (ha : ¬ p.dist a.place < r) :
    Anchor.nearer p r best a = best :=
  if_neg fun hlt => ha (h.bound.2 _ hlt)

/-- The search may be confined to the anchors nearer than the radius. -/
theorem nearestWithin_filter (p : Point Float32) (r : Float32) (as : List (Anchor Float32)) :
    nearestWithin p r (as.filter fun a => decide (p.dist a.place < r)) = nearestWithin p r as := by
  induction as using List.reverseRecOn with
  | nil => rfl
  | append_singleton as a ih =>
    have hlast : nearestWithin p r (as ++ [a]) = Anchor.nearer p r (nearestWithin p r as) a :=
      List.foldl_append ..
    rw [List.filter_append, hlast, ← ih]
    by_cases ha : p.dist a.place < r
    · rw [List.filter_singleton, decide_eq_true ha]
      exact List.foldl_append ..
    · rw [List.filter_singleton, decide_eq_false ha, (best_nearestWithin p r _).nearer_of_far ha]
      exact congrArg _ (List.append_nil _)

/-- A distance that is no number is not less than the radius. -/
theorem not_lt_of_notANumber {x : Float32} (hx : (x == x) = false) : ¬ x < r := by
  intro hlt
  have hnumber := (Single.lt_iff_level.1 hlt).1
  rw [Single.beq_iff_level.2 ⟨hnumber, hnumber, rfl⟩] at hx
  cases hx

/-- **The nearest anchor.**  Nothing is found exactly if nothing is nearer than the radius, and else the
first of the anchors at the least distance, with this distance.  Only the anchors that are nearer than
the radius, in their order, matter for that; so those whose distance is no number do not. -/
theorem nearestWithin_spec (p : Point Float32) (r : Float32) (as : List (Anchor Float32)) :
    (nearestWithin p r as = none ↔ ∀ a ∈ as, ¬ p.dist a.place < r) ∧
      (∀ a d, nearestWithin p r as = some (a, d) ↔ IsNearest p r as a d) ∧
      (∀ as' : List (Anchor Float32), (as'.filter fun a => decide (p.dist a.place < r)) =
          as.filter (fun a => decide (p.dist a.place < r)) →
        nearestWithin p r as' = nearestWithin p r as) ∧
      nearestWithin p r (as.filter fun a => p.dist a.place == p.dist a.place) =
        nearestWithin p r as := by
  have hcongr : ∀ as' : List (Anchor Float32), (as'.filter fun a => decide (p.dist a.place < r)) =
      as.filter (fun a => decide (p.dist a.place < r)) →
      nearestWithin p r as' = nearestWithin p r as := by
    intro as' h
    rw [← nearestWithin_filter p r as', h, nearestWithin_filter]
  refine ⟨?_, fun a d => ⟨fun h => ?_, fun h => ?_⟩, hcongr, hcongr _ ?_⟩
  · rw [← Option.not_isSome_iff_eq_none, nearestWithin_isSome_iff]
    simp only [not_exists, not_and]
  · have hbest := best_nearestWithin p r as
    rw [h] at hbest
    cases hbest with
    | found nearest => exact nearest
  · have hbest := best_nearestWithin p r as
    generalize nearestWithin p r as = best at hbest ⊢
    cases hbest with
    | nothing far => exact absurd (h.dist ▸ h.near) (far a h.mem)
    | found nearest =>
      obtain ⟨rfl, rfl⟩ := nearest.unique h
      rfl
  · rw [List.filter_filter]
    refine List.filter_congr fun a _ => ?_
    by_cases ha : (p.dist a.place == p.dist a.place) = true
    · rw [ha, Bool.and_true]
    · rw [decide_eq_false (not_lt_of_notANumber (Bool.not_eq_true _ ▸ ha)), Bool.false_and]

/-- Two anchors are equally near, and before them stand one at a distance that is no number, one at an
infinite distance, and one on the edge. -/
theorem nearestWithin_spec_tied :
    let p : Point Float32 := ⟨0.0, 0.0⟩
    let near : List (Anchor Float32) := [⟨"b", .input, ⟨3.0, -4.0⟩⟩, ⟨"c", .input, ⟨-5.0, 0.0⟩⟩]
    let far : List (Anchor Float32) := [⟨"x", .input, ⟨0.0 / 0.0, 0.0⟩⟩,
      ⟨"y", .input, ⟨1.0 / 0.0, 1.0⟩⟩, ⟨"z", .output, ⟨0.0, 30.0⟩⟩]
    nearestWithin p 30.0 (far ++ near) = some (⟨"b", .input, ⟨3.0, -4.0⟩⟩, 5.0) := by
  intro p near far
  have hnear : nearestWithin p 30.0 near = some (⟨"b", .input, ⟨3.0, -4.0⟩⟩, 5.0) := by
    refine ((nearestWithin_spec p 30.0 near).2.1 _ _).2 ⟨?_, ?_, ?_, [], _, rfl, nofun⟩
    · decide +kernel
    · decide +kernel
    · decide +kernel
  rw [← hnear]
  exact (nearestWithin_spec p 30.0 near).2.2.1 _ (by decide +kernel)

end Anchor

end Wireboard
