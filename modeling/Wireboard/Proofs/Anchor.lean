import Wireboard.Proofs.Diagram.Queries
import Wireboard.Pin

/-!
# Anchors

The search for the nearest anchor finds one if one is nearer than the radius
(`nearestWithin_isSome_iff`), and it is one of the anchors it was given (`mem_of_nearestWithin`).  So
among the input pins of some nodes it finds the pin of one of them
(`exists_of_nearestWithin`).
-/

namespace Wireboard

namespace Anchor

variable {α : Type} [Scalar α]

/-- The best anchor after a fold is the one to begin with or one that the fold came across. -/
theorem foldl_nearer_eq_some {p : Point α} {radius : α} {as : List (Anchor α)}
    {best : Option (Anchor α × α)} {a : Anchor α} {dist : α}
    (h : as.foldl (nearer p radius) best = some (a, dist)) : best = some (a, dist) ∨ a ∈ as := by
  induction as generalizing best with
  | nil => exact .inl h
  | cons b as ih =>
    rcases ih h with hbest | hmem
    · unfold nearer at hbest
      split at hbest
      · obtain ⟨rfl, -⟩ : b = a ∧ _ := by simpa using hbest
        exact .inr List.mem_cons_self
      · exact .inl hbest
    · exact .inr (List.mem_cons_of_mem _ hmem)

theorem mem_of_nearestWithin {p : Point α} {radius : α} {as : List (Anchor α)} {a : Anchor α}
    {dist : α} (h : nearestWithin p radius as = some (a, dist)) : a ∈ as := by
  rcases foldl_nearer_eq_some h with hnone | hmem
  · cases hnone
  · exact hmem

theorem foldl_nearer_isSome (p : Point α) (radius : α) (as : List (Anchor α)) (best : Anchor α × α) :
    (as.foldl (nearer p radius) (some best)).isSome = true := by
  induction as generalizing best with
  | nil => rfl
  | cons a as ih =>
    rw [List.foldl_cons]
    unfold nearer
    split
    · exact ih _
    · exact ih _

/-- Something is found exactly if something is nearer than the radius. -/
theorem nearestWithin_isSome_iff {p : Point α} {radius : α} {as : List (Anchor α)} :
    (nearestWithin p radius as).isSome = true ↔ ∃ a ∈ as, p.dist a.place < radius := by
  unfold nearestWithin
  induction as with
  | nil => simp
  | cons a as ih =>
    rw [List.foldl_cons, List.exists_mem_cons_iff]
    by_cases h : p.dist a.place < radius
    · have hbest : nearer p radius none a = some (a, p.dist a.place) := if_pos h
      rw [hbest]
      exact iff_of_true (foldl_nearer_isSome p radius as _) (.inl h)
    · have hbest : nearer p radius none a = none := if_neg h
      rw [hbest, ih, or_iff_right h]

theorem exists_of_nearestWithin {p : Point α} {radius : α} {settings : Settings α}
    {v : Viewport α} {pin : Pin} {nodes : List (Node α)} {a : Anchor α} {dist : α}
    (h : nearestWithin p radius (settings.anchors v pin nodes) = some (a, dist)) :
    ∃ n ∈ nodes, a = ⟨n.id, pin, v.toScreen (settings.pinPlace n pin)⟩ := by
  obtain ⟨n, hn, rfl⟩ := List.mem_map.1 (mem_of_nearestWithin h)
  exact ⟨n, hn, rfl⟩

end Anchor

end Wireboard
