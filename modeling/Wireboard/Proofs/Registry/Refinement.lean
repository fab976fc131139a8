import Wireboard.Proofs.Registry.Tracking

/-!
# Diagrams are registries

Whatever is done to a diagram might as well be done to a registry, where nodes keep one identity and
links have nothing to do with ids.

* `perform_agrees`: an edit of one and of the other gets the same answer or the same refusal, and
  they track each other afterwards;
* `tracks_run`: so it is after every run of edits, from nothing;
* `links_step_rename`: read as serial numbers, the links after a rename are the links before it.
-/

namespace Wireboard

namespace Registry

variable {α : Type} {r : Registry α} {d : Diagram α}

/-- The two edits are answered alike and what they leave is the same graph, or they are refused
alike. -/
inductive Agree :
    Except (Refusal α) (Outcome α × Registry α) → Except (Refusal α) (Outcome α × Diagram α) → Prop
  | ok (o : Outcome α) {r : Registry α} {d : Diagram α} (tracks : Tracks r d) :
      Agree (.ok (o, r)) (.ok (o, d))
  | error (x : Refusal α) : Agree (.error x) (.error x)

theorem Agree.answer {x : Except (Refusal α) (Outcome α × Registry α)}
    {y : Except (Refusal α) (Outcome α × Diagram α)} (h : Agree x y) :
    x.map Prod.fst = y.map Prod.fst := by
  cases h <;> rfl

/-- An id is borne in both graphs, by the same node, or in neither. -/
theorem Tracks.find (h : Tracks r d) (id : String) :
    (∃ e, r.holder? id = some e ∧ d.node? id = some e.node ∧ d.isLive id = true) ∨
      r.holder? id = none ∧ d.node? id = none ∧ d.isLive id = false := by
  have hnode := h.node?_eq id
  cases he : r.holder? id with
  | some e =>
    rw [he, Option.map_some] at hnode
    exact .inl ⟨e, rfl, hnode, Diagram.isLive_of_node? hnode⟩
  | none =>
    rw [he, Option.map_none] at hnode
    exact .inr ⟨rfl, hnode, Diagram.node?_eq_none_iff.1 hnode⟩

/-! ## edit by edit -/

/-- Three of the edits change one field of a live node. -/
theorem Tracks.amend_agrees (h : Tracks r d) (id : String) {f : Node α → Node α}
    (hf : ∀ n, (f n).id = n.id) :
    Agree (r.about id fun e => .ok (.done, r.amend e.serial f))
      (Except.map (fun d => (.done, d))
        (if d.isLive id then .ok (d.modify id f) else .error (.unknownNode id))) := by
  unfold about
  rcases h.find id with ⟨e, he, -, hlive⟩ | ⟨he, -, hlive⟩
  · rw [he, hlive]
    exact .ok _ (h.modify he hf)
  · rw [he, hlive]
    exact .error _

variable [Scalar α]

theorem Tracks.add_agrees (h : Tracks r d) (l : Layer) (p : Point α) :
    Agree (r.perform (.add l p)) (d.perform (.add l p)) := by
  simp only [Registry.perform, Registry.add, Diagram.perform, Diagram.add, h.ids_eq, h.supply]
  by_cases hp : p.isFinite = true
  · rw [if_pos hp, if_pos hp]
    cases hdraw : drawFresh d.ids d.supply with
    | none => exact .error _
    | some drawn =>
      obtain ⟨id, rest⟩ := drawn
      obtain ⟨hfresh, -⟩ := drawFresh_eq_some hdraw
      exact .ok _ (h.added (n := ⟨id, l, l.defaults, p, none⟩) hfresh rest)
  · rw [if_neg hp, if_neg hp]
    exact .error _

theorem Tracks.addNamed_agrees (h : Tracks r d) (name : String) (p : Point α) :
    Agree (r.perform (.addNamed name p)) (d.perform (.addNamed name p)) := by
  simp only [Registry.perform, Diagram.perform, Diagram.addNamed]
  cases Layer.ofName? name with
  | none => exact .error _
  | some l => exact h.add_agrees l p

theorem Tracks.remove_agrees (h : Tracks r d) (id : String) :
    Agree (r.perform (.remove id)) (d.perform (.remove id)) := by
  rcases h.find id with ⟨e, he, hn, -⟩ | ⟨he, hn, -⟩
  · have hd : d.remove id = .ok (e.node, d.without id) := Diagram.remove_eq_ok_iff.2 ⟨hn, rfl⟩
    simp only [Registry.perform, about, he, Diagram.perform, hd]
    exact .ok _ (h.without he)
  · simp only [Registry.perform, about, he, Diagram.perform, Diagram.remove, hn]
    exact .error _

theorem Tracks.rename_agrees (h : Tracks r d) (id new : String) :
    Agree (r.perform (.rename id new)) (d.perform (.rename id new)) := by
  simp only [Registry.perform, Diagram.perform, Diagram.rename_eq, h.ids_eq]
  by_cases hempty : trimmed new = ""
  · rw [if_pos hempty, if_pos hempty]
    exact .error _
  rw [if_neg hempty, if_neg hempty]
  rcases h.find id with ⟨e, he, -, hlive⟩ | ⟨he, -, hlive⟩
  · rw [if_neg (not_not.2 (Diagram.isLive_iff.1 hlive))]
    simp only [about, he]
    split_ifs with hfree
    · exact .error _
    · exact .ok _ (h.renamed he (by simpa using hfree))
  · rw [if_pos (Diagram.isLive_eq_false_iff.1 hlive)]
    simp only [about, he]
    exact .error _

theorem Tracks.update_agrees (h : Tracks r d) (id name raw : String) :
    Agree (r.perform (.update id name raw)) (d.perform (.update id name raw)) := by
  simp only [Registry.perform, Diagram.perform, Diagram.update, about]
  rcases h.find id with ⟨e, he, hn, -⟩ | ⟨he, hn, -⟩
  · rw [he, hn]
    exact .ok _ (h.modify he fun _ => rfl)
  · rw [he, hn]
    exact .error _

theorem Tracks.setParam_agrees (h : Tracks r d) (id name : String) (v : Param) :
    Agree (r.perform (.setParam id name v)) (d.perform (.setParam id name v)) :=
  h.amend_agrees id fun _ => rfl

theorem Tracks.setPosition_agrees (h : Tracks r d) (id : String) (p : Point α) :
    Agree (r.perform (.setPosition id p)) (d.perform (.setPosition id p)) := by
  simp only [Registry.perform, Diagram.perform, Diagram.setPosition]
  by_cases hp : p.isFinite = true
  · rw [if_pos hp, if_neg (by simp [hp])]
    exact h.amend_agrees id fun _ => rfl
  · rw [if_neg hp, if_pos (by simp [hp])]
    exact .error _

theorem Tracks.setWidth_agrees (h : Tracks r d) (id : String) (w : α) :
    Agree (r.perform (.setWidth id w)) (d.perform (.setWidth id w)) := by
  simp only [Registry.perform, Diagram.perform, Diagram.setWidth]
  by_cases hw : Diagram.isWidth w = true
  · rw [if_pos hw, if_neg (by simp [hw])]
    refine h.amend_agrees id fun n => ?_
    split
    · rfl
    · rfl
  · rw [if_neg hw, if_pos (by simp [hw])]
    exact .error _

theorem Tracks.toggle_agrees (h : Tracks r d) (source target : String) :
    Agree (r.perform (.toggle source target)) (d.perform (.toggle source target)) := by
  simp only [Registry.perform, Diagram.perform, about]
  by_cases hne : source = target
  · rw [if_pos hne, Diagram.toggle, if_pos hne]
    exact .error _
  rw [if_neg hne]
  rcases h.find source with ⟨a, ha, -, hs⟩ | ⟨ha, -, hs⟩
  · rcases h.find target with ⟨b, hb, -, ht⟩ | ⟨hb, -, ht⟩
    · have hflip := h.flipped hne ha hb
      have hd := Diagram.toggle_eq_ok_iff.2
        ⟨hne, Diagram.isLive_iff.1 hs, Diagram.isLive_iff.1 ht, rfl, rfl⟩
      rw [ha, hb, hd]
      -- the registry asks for the pair where the diagram asks for the link
      simp only [← h.hasLink_iff ha hb]
      split_ifs at hflip ⊢
      · exact .ok _ hflip
      · exact .ok _ hflip
    · rw [ha, hb, Diagram.toggle, if_neg hne, hs, ht]
      exact .error _
  · rw [ha, Diagram.toggle, if_neg hne, hs]
    exact .error _

/-- **Simulation.** Edits of a registry and of the diagram that it tracks agree. -/
theorem Tracks.perform_agrees (h : Tracks r d) (e : Edit α) :
    Agree (r.perform e) (d.perform e) := by
  cases e with
  | add l p => exact h.add_agrees l p
  | addNamed name p => exact h.addNamed_agrees name p
  | remove id => exact h.remove_agrees id
  | rename id new => exact h.rename_agrees id new
  | update id name raw => exact h.update_agrees id name raw
  | setParam id name v => exact h.setParam_agrees id name v
  | setPosition id p => exact h.setPosition_agrees id p
  | setWidth id w => exact h.setWidth_agrees id w
  | toggle source target => exact h.toggle_agrees source target
  | clear => exact .ok _ h.cleared

/-! ## runs -/

theorem Tracks.step (h : Tracks r d) (e : Edit α) : Tracks (r.step e) (d.step e) := by
  have hagree := h.perform_agrees e
  unfold Registry.step Diagram.step
  generalize r.perform e = x, d.perform e = y at hagree
  cases hagree with
  | ok o tracks => exact tracks
  | error x => exact h

theorem Tracks.run (h : Tracks r d) (es : List (Edit α)) : Tracks (r.run es) (d.run es) := by
  induction es generalizing r d with
  | nil => exact h
  | cons e es ih => exact ih (h.step e)

theorem tracks_run (supply : List String) (es : List (Edit α)) :
    Tracks ((empty supply).run es) ((Diagram.empty supply).run es) :=
  (tracks_empty supply).run es

/-! ## renaming -/

/-- A rename amends at most one node. -/
theorem step_rename (r : Registry α) (id new : String) :
    r.step (.rename id new) = r ∨ ∃ k f, r.step (.rename id new) = r.amend k f := by
  simp only [Registry.step, Registry.perform, about]
  by_cases hempty : trimmed new = ""
  · rw [if_pos hempty]
    exact .inl rfl
  rw [if_neg hempty]
  cases r.holder? id with
  | none => exact .inl rfl
  | some e =>
    by_cases hfree : trimmed new ∈ r.ids ∧ trimmed new ≠ id
    · left
      simp only [if_pos hfree]
    · simp only [if_neg hfree]
      exact .inr ⟨e.serial, _, rfl⟩

theorem serials_step_rename (r : Registry α) (id new : String) :
    (r.step (.rename id new)).serials = r.serials := by
  rcases step_rename r id new with hr | ⟨k, f, hr⟩
  · rw [hr]
  · rw [hr, serials_amend]

theorem pairs_step_rename (r : Registry α) (id new : String) :
    (r.step (.rename id new)).pairs = r.pairs := by
  rcases step_rename r id new with hr | ⟨k, f, hr⟩
  · rw [hr]
  · rw [hr]
    rfl

theorem Tracks.links_step_rename (h : Tracks r d) (id new : String) :
    (d.step (.rename id new)).links.map (r.step (.rename id new)).read = d.links.map r.read := by
  rw [(h.step _).read_links, h.read_links, pairs_step_rename]

/-- **Diagrams are registries.**  After every run of edits from nothing, the nodes of the diagram are
those of the registry, in the order of their creation, and its links, read through the ids that nodes
bear at present, are the pairs of the registry, in order.  Edits are answered and refused alike, and
no rename changes what the links read as. -/
theorem diagram_refines_registry (supply : List String) (es : List (Edit α)) :
    let r := (Registry.empty supply).run es
    let d := (Diagram.empty supply).run es
    d.nodes = r.entries.map (·.node) ∧ d.supply = r.supply ∧
      d.links.map r.read = r.pairs.map (fun p => (some p.1, some p.2)) ∧
      r.serials.Pairwise (· < ·) ∧
      (∀ e, (d.perform e).map Prod.fst = (r.perform e).map Prod.fst) ∧
      ∀ id new,
        (d.step (.rename id new)).links.map (r.step (.rename id new)).read = d.links.map r.read ∧
          (r.step (.rename id new)).serials = r.serials := by
  intro r d
  have h : Tracks r d := tracks_run supply es
  refine ⟨h.nodes.symm, h.supply.symm, h.read_links, h.ascending, fun e => ?_, fun id new => ?_⟩
  · exact (h.perform_agrees e).answer.symm
  · exact ⟨h.links_step_rename id new, serials_step_rename r id new⟩

end Registry

end Wireboard
