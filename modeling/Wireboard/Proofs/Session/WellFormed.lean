import Wireboard.Proofs.Diagram.WellFormed
import Wireboard.Proofs.Session.Sound

/-!
# What sessions store

The coordinates that a pointer gives may be finite and what becomes of them in the diagram may not, but
such a place is refused wherever a node could get it.  So all that a session ever stores is well-formed
and can be written for other programs (`wellFormed_run_of_open`).
-/

namespace Wireboard

namespace Diagram

variable {α : Type} [Scalar α] {supply : List String}

/-- The diagrams of well-formed nodes, with proper ids left to be drawn. -/
structure Storing (d : Diagram α) : Prop where
  proper : d.Proper
  nodes : ∀ n ∈ d.nodes, n.WellFormed

theorem Storing.step {d : Diagram α} (h : d.Storing) {e : Edit α} (he : e.setsParam = false) :
    (d.step e).Storing :=
  ⟨h.proper.change (step_change d e), wellFormed_step h.nodes h.proper he⟩

theorem storing_run (hsupply : ∀ id ∈ supply, IsProperId id) {es : List (Edit α)}
    (hes : ∀ e ∈ es, e.setsParam = false) : ((empty supply).run es : Diagram α).Storing := by
  have hempty : (empty supply : Diagram α).Storing :=
    ⟨⟨by simp [empty, ids], hsupply⟩, by simp [empty]⟩
  have hall : ∀ {d : Diagram α}, d.Storing → (d.run es).Storing := by
    induction es with
    | nil => exact fun h => h
    | cons e es ih =>
      intro d h
      rw [List.forall_mem_cons] at hes
      exact ih hes.2 (h.step hes.1)
  exact hall hempty

end Diagram

namespace Session

theorem storing_step {α : Type} [Scalar α] {s : Session α} (h : s.diagram.Storing) (a : Action α) :
    (s.step a).diagram.Storing := by
  rcases step_diagram s a with hd | ⟨e, -, he, hd⟩
  · rw [hd]
    exact h
  · rw [hd]
    exact h.step he

/-- **Whatever is stored is well-formed.**  From a diagram made by edits that check what they store,
out of a supply of proper ids, a session is opened, and whatever is done to it, all of its nodes are
well-formed.  So what is written for other programs, with a stamp or without, never has a `null` in
it. -/
theorem wellFormed_run_of_open (settings : Settings Float32) {supply : List String}
    (hsupply : ∀ id ∈ supply, IsProperId id) {es : List (Edit Float32)}
    (hes : ∀ e ∈ es, e.setsParam = false) :
    ∃ s, open? settings ((Diagram.empty supply).run es) = some s ∧
      ∀ as : List (Action Float32), (∀ n ∈ (s.run as).diagram.nodes, n.WellFormed) ∧
        ∀ stamp f, ∃ j, Json.parse?
          (Document.text { (s.run as).diagram.document with stamp } f) = some j ∧ j.NullFree := by
  obtain ⟨s, hopen⟩ := exists_open? settings ((Diagram.empty supply).run es)
  refine ⟨s, hopen, fun as => ?_⟩
  have hs : s.diagram.Storing := by
    obtain ⟨v, -, rfl⟩ := Option.map_eq_some_iff.1 hopen
    exact Diagram.storing_run hsupply hes
  have hrun : (s.run as).diagram.Storing :=
    run_induction (P := fun s => s.diagram.Storing) (fun a h => storing_step h a) hs as
  exact ⟨hrun.nodes, Document.nullFree_text hrun.nodes⟩

/-- A node is dragged to a place that is none, measured in numbers that are none, and told to hold
one. -/
theorem wellFormed_run_of_open_astray :
    ∃ s : Session Float32, open? .initial
        ((Diagram.empty (generatedIds 0 2)).run [.add .conv2d ⟨1.0, 2.0⟩]) = some s ∧
      ∀ n ∈ (s.run [.dropLayer .linear ⟨3e38, -3e38⟩,
        .press ⟨⟨10.0, 10.0⟩, .primary, false, .body "AAAAAAAA"⟩, .wheel ⟨0.0, 0.0⟩ 2000.0,
        .move ⟨3e38, 0.0⟩, .reportWidth "AAAAAAAA" (0.0 / 0.0),
        .update "AAAAAAAA" "numFilters" "1e999"]).diagram.nodes, n.WellFormed := by
  have hsupply : ∀ id ∈ generatedIds 0 2, IsProperId id :=
    fun _ => isProperId_of_mem_generatedIds
  have hes : ∀ e ∈ [(.add .conv2d ⟨1.0, 2.0⟩ : Edit Float32)], e.setsParam = false := by
    simp [Edit.setsParam]
  obtain ⟨s, hopen, hall⟩ := wellFormed_run_of_open .initial hsupply hes
  exact ⟨s, hopen, (hall _).1⟩

end Session

end Wireboard
