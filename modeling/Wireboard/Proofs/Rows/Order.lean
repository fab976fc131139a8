import Mathlib.Data.List.Infix
import Mathlib.Data.List.Nodup
import Wireboard.Proofs.Session.Sound
import Wireboard.Rows

/-!
# The order of the rows

The rows of the nodes are painted in their order, and so are the nodes of a diagram, the last one on
top.  The rows follow in rounds: some actions on the session, then the rows are brought up to date.

* `ids_sync`: rows that are there stay in their order, the new ones come after them.  So the rows
  are in the order of the nodes exactly if those that stay were at its beginning (`ids_sync_eq_iff`).
* `Aligned` is the invariant between two syncs that makes this true.  It is kept by all that does
  not rename (`Aligned.run`), as long as no id comes up twice.
* `order_after_round` puts these together: which rows there are, when they are in order, and that in
  this case the uppermost row is the uppermost node.  A renamed node stays where it is, and its row
  goes to the end (`not_ids_after_rename`).
-/

set_option linter.unusedSectionVars false

namespace Wireboard

namespace NodeRows

variable {α ρ : Type} [Scalar α] {R : NodeRows α ρ} {d : Diagram α} {rows : List ρ}

/-- A new row bears the id of its node, and moving a row does not change its id. -/
structure Lawful (R : NodeRows α ρ) : Prop where
  id_setX : ∀ x r, R.id (R.setX x r) = R.id r
  id_setY : ∀ y r, R.id (R.setY y r) = R.id r
  id_ofNode : ∀ n, R.id (R.ofNode n) = n.id

/-- Rows that hold an id and a position and nothing else. -/
def plain : NodeRows α (String × Point α) where
  id r := r.1
  x r := r.2.x
  y r := r.2.y
  setX x r := (r.1, { r.2 with x })
  setY y r := (r.1, { r.2 with y })
  ofNode n := (n.id, n.position)

theorem lawful_plain : (plain : NodeRows α (String × Point α)).Lawful :=
  ⟨fun _ _ => rfl, fun _ _ => rfl, fun _ => rfl⟩

/-! ## one sync -/

theorem Lawful.id_place (hR : R.Lawful) (n : Node α) (r : ρ) : R.id (R.place n r) = R.id r := by
  unfold place
  split
  · rw [hR.id_setY, hR.id_setX]
  · rfl

/-- The rows that stay are those of live nodes. -/
theorem Lawful.ids_refreshed (hR : R.Lawful) (d : Diagram α) (rows : List ρ) :
    (rows.filterMap (R.refresh? d)).map R.id = (rows.map R.id).filter d.isLive := by
  induction rows with
  | nil => rfl
  | cons r rows ih =>
    rw [List.map_cons, List.filterMap_cons, List.filter_cons, ← Diagram.isSome_node?, refresh?]
    cases hn : d.node? (R.id r) with
    | none => simpa using ih
    | some n => simp [hR.id_place, ih]

/-- A node that has a row is passed over, and the others get new rows. -/
theorem Lawful.foldl_append (hR : R.Lawful) :
    ∀ {ns : List (Node α)} (rows : List ρ), (ns.map (·.id)).Nodup →
      ns.foldl R.append rows = rows ++ (ns.filter (·.id ∉ rows.map R.id)).map R.ofNode := by
  intro ns
  induction ns with
  | nil => simp
  | cons n ns ih =>
    intro rows hnd
    rw [List.map_cons, List.nodup_cons] at hnd
    have hany : rows.any (R.id · == n.id) = true ↔ n.id ∈ rows.map R.id := by simp
    rw [List.foldl_cons, ih _ hnd.2, append]
    by_cases h : n.id ∈ rows.map R.id
    · rw [if_pos (hany.2 h), List.filter_cons_of_neg (by simpa using h)]
    · -- the new row hides no later node, as that one has another id
      have hlater : ns.filter (·.id ∉ (rows ++ [R.ofNode n]).map R.id) =
          ns.filter (·.id ∉ rows.map R.id) := by
        refine List.filter_congr fun m hm => ?_
        have hne : m.id ≠ n.id := fun he => hnd.1 (he ▸ List.mem_map_of_mem hm)
        simp [hR.id_ofNode, hne]
      rw [if_neg (mt hany.1 h), hlater, List.filter_cons_of_pos (by simpa using h), List.append_assoc,
        List.map_cons, List.singleton_append]

theorem Lawful.ids_foldl_append (hR : R.Lawful) {ns : List (Node α)} (rows : List ρ)
    (hns : (ns.map (·.id)).Nodup) :
    (ns.foldl R.append rows).map R.id =
      rows.map R.id ++ (ns.map (·.id)).filter (· ∉ rows.map R.id) := by
  rw [hR.foldl_append rows hns, List.map_append, List.map_map, List.filter_map]
  congr 2
  funext n
  exact hR.id_ofNode n

/-- The rows that stay keep their order, and new ones come after them, in the order of the nodes. -/
theorem Lawful.ids_sync (hR : R.Lawful) (hd : d.ids.Nodup) (rows : List ρ) :
    (R.sync d rows).map R.id =
      (rows.map R.id).filter d.isLive ++ d.ids.filter (· ∉ rows.map R.id) := by
  have hnew : d.ids.filter (· ∉ (rows.map R.id).filter d.isLive) =
      d.ids.filter (· ∉ rows.map R.id) := by
    refine List.filter_congr fun id hid => ?_
    simp [List.mem_filter, Diagram.isLive_iff.2 hid]
  rw [sync, hR.ids_foldl_append _ hd, hR.ids_refreshed, ← hnew]
  rfl

theorem Lawful.mem_ids_sync (hR : R.Lawful) (hd : d.ids.Nodup) {id : String} :
    id ∈ (R.sync d rows).map R.id ↔ id ∈ d.ids := by
  rw [hR.ids_sync hd, List.mem_append, List.mem_filter, List.mem_filter, Diagram.isLive_iff,
    decide_eq_true_eq]
  by_cases h : id ∈ rows.map R.id <;> simp [h]

/-- If no two rows were of one node, there is one row for every node after a sync. -/
theorem Lawful.ids_sync_perm (hR : R.Lawful) (hd : d.ids.Nodup) (hrows : (rows.map R.id).Nodup) :
    ((R.sync d rows).map R.id).Perm d.ids := by
  have hnodup : ((R.sync d rows).map R.id).Nodup := by
    rw [hR.ids_sync hd]
    refine List.Nodup.append (hrows.filter _) (hd.filter _) fun id hold hnew => ?_
    have := (List.mem_filter.1 hnew).2
    simp [(List.mem_filter.1 hold).1] at this
  exact (List.perm_ext_iff_of_nodup hnodup hd).2 fun _ => hR.mem_ids_sync hd

/-- After a sync the rows are in the order of the nodes exactly if the nodes whose rows stay come
first, in the order of these rows. -/
theorem Lawful.ids_sync_eq_iff (hR : R.Lawful) (hd : d.ids.Nodup) :
    (R.sync d rows).map R.id = d.ids ↔ (rows.map R.id).filter d.isLive <+: d.ids := by
  rw [hR.ids_sync hd]
  refine ⟨fun h => ⟨_, h⟩, fun ⟨later, h⟩ => ?_⟩
  have hdisjoint := List.nodup_append'.1 (h ▸ hd)
  have hlater : d.ids.filter (· ∉ rows.map R.id) = later := by
    rw [← h, List.filter_append]
    have hold : ((rows.map R.id).filter d.isLive).filter (· ∉ rows.map R.id) = [] := by
      rw [List.filter_eq_nil_iff]
      intro id hid
      simpa using (List.mem_filter.1 hid).1
    have hnew : later.filter (· ∉ rows.map R.id) = later := by
      rw [List.filter_eq_self]
      intro id hid
      have hlive : d.isLive id = true :=
        Diagram.isLive_iff.2 (h ▸ List.mem_append_right _ hid)
      simpa using fun r hr he =>
        hdisjoint.2.2 (List.mem_filter.2 ⟨List.mem_map.2 ⟨r, hr, he⟩, hlive⟩) hid
    rw [hold, hnew, List.nil_append]
  rw [hlater, h]

/-! ## what holds between two syncs -/

/-- Nodes that have rows come first, in the order of the rows, and the ids still to be drawn are new
to rows and nodes. -/
structure Aligned (shown : List String) (d : Diagram α) : Prop where
  shown_prefix : shown.filter d.isLive <+: d.ids
  unseen : ∀ id ∈ d.supply, id ∉ shown
  fresh : (d.ids ++ d.supply).Nodup

variable {shown : List String}

theorem Aligned.refl (hd : (d.ids ++ d.supply).Nodup) : Aligned d.ids d where
  shown_prefix := by
    rw [List.filter_eq_self.2 fun _ => Diagram.isLive_iff.2]
  unseen id hid hmem := (List.nodup_append'.1 hd).2.2 hmem hid
  fresh := hd

/-- Taking nodes away leaves gaps in both orders, and a node that is added is last in both. -/
theorem Aligned.step (h : Aligned shown d) {e : Edit α} (he : e.renames = false) :
    Aligned shown (d.step e) := by
  rcases Diagram.ids_step_of_not_renames (d := d) he with
    ⟨keep, hids, hsupply⟩ | ⟨id, skipped, hsupply, hids⟩
  · have hlive : shown.filter (d.step e).isLive = (shown.filter d.isLive).filter keep := by
      rw [List.filter_filter]
      refine List.filter_congr fun id _ => ?_
      rw [Bool.eq_iff_iff, Bool.and_eq_true, Diagram.isLive_iff, Diagram.isLive_iff, hids,
        List.mem_filter, and_comm]
    refine ⟨?_, hsupply ▸ h.unseen, ?_⟩
    · rw [hlive, hids]
      exact h.shown_prefix.filter keep
    · rw [hids, hsupply]
      exact h.fresh.sublist (List.filter_sublist.append_right _)
  · have hid : id ∉ shown := h.unseen id (by simp [hsupply])
    have hlive : shown.filter (d.step e).isLive = shown.filter d.isLive := by
      refine List.filter_congr fun x hx => ?_
      have hne : x ≠ id := fun he => hid (he ▸ hx)
      rw [Bool.eq_iff_iff, Diagram.isLive_iff, Diagram.isLive_iff, hids]
      simp [hne]
    refine ⟨?_, fun x hx => h.unseen x (by simp [hsupply, hx]), ?_⟩
    · rw [hlive, hids]
      exact h.shown_prefix.trans (List.prefix_append _ _)
    · have hfresh := h.fresh
      rw [hsupply] at hfresh
      rw [hids, List.append_assoc, List.singleton_append]
      exact hfresh.sublist ((List.sublist_append_right _ _).append_left _)

theorem Aligned.run {s : Session α} (h : Aligned shown s.diagram) {as : List (Action α)}
    (has : ∀ a ∈ as, a.renames = false) : Aligned shown (s.run as).diagram := by
  induction as generalizing s with
  | nil => exact h
  | cons a as ih =>
    have hstep : Aligned shown (s.step a).diagram := by
      rcases Session.step_diagram s a with hd | ⟨e, he, -, hd⟩
      · exact hd ▸ h
      · exact hd ▸ h.step (he.trans (has a List.mem_cons_self))
    exact ih hstep fun b hb => has b (List.mem_cons_of_mem _ hb)

/-! ## rounds -/

/-- A round: some actions on the session, then the rows are brought up to date. -/
def round (R : NodeRows α ρ) (m : Session α × List ρ) (as : List (Action α)) :
    Session α × List ρ :=
  (m.1.run as, R.sync (m.1.run as).diagram m.2)

/-- The session and its rows after some rounds.  There are no rows at first. -/
def rounds (R : NodeRows α ρ) (s : Session α) (rs : List (List (Action α))) : Session α × List ρ :=
  rs.foldl R.round (s, [])

variable {supply : List String} {s : Session α}

theorem rounds_append_singleton (R : NodeRows α ρ) (s : Session α) (rs : List (List (Action α)))
    (as : List (Action α)) : R.rounds s (rs ++ [as]) = R.round (R.rounds s rs) as := by
  rw [rounds, List.foldl_append]
  rfl

theorem reached_rounds (hs : Session.Reached supply s) (rs : List (List (Action α))) :
    Session.Reached supply (R.rounds s rs).1 := by
  induction rs using List.reverseRecOn with
  | nil => exact hs
  | append_singleton rs as ih =>
    rw [rounds_append_singleton]
    exact ih.run as

theorem nodup_ids_of_reached (hs : Session.Reached supply s) : s.diagram.ids.Nodup :=
  hs.sound.diagram.ids_nodup

theorem Lawful.nodup_ids_rounds (hR : R.Lawful) (hs : Session.Reached supply s)
    (rs : List (List (Action α))) : ((R.rounds s rs).2.map R.id).Nodup := by
  induction rs using List.reverseRecOn with
  | nil => exact List.nodup_nil
  | append_singleton rs as ih =>
    have hd := nodup_ids_of_reached ((reached_rounds (R := R) hs rs).run as)
    rw [rounds_append_singleton]
    exact (hR.ids_sync_perm hd ih).nodup_iff.2 hd

theorem Lawful.aligned_rounds (hR : R.Lawful) (hs : Session.Reached supply s)
    (hfresh : (s.diagram.ids ++ s.diagram.supply).Nodup) {rs : List (List (Action α))}
    (hrs : ∀ as ∈ rs, ∀ a ∈ as, a.renames = false) :
    Aligned ((R.rounds s rs).2.map R.id) (R.rounds s rs).1.diagram := by
  induction rs using List.reverseRecOn with
  | nil => exact ⟨List.nil_prefix, fun _ _ => List.not_mem_nil, hfresh⟩
  | append_singleton rs as ih =>
    have hbefore := ih fun as' h => hrs as' (List.mem_append_left _ h)
    have hafter := hbefore.run (hrs as (by simp))
    have hd := nodup_ids_of_reached ((reached_rounds (R := R) hs rs).run as)
    rw [rounds_append_singleton, round, (hR.ids_sync_eq_iff hd).2 hafter.shown_prefix]
    exact Aligned.refl hafter.fresh

/-- Of the nodes with these ids, in this order, the last one at a point of the screen. -/
def lastAt (s : Session α) (shown : List String) (p : Point α) (height : α) : Option String :=
  shown.reverse.find? fun id =>
    (s.diagram.node? id).any (s.settings.covers · height (s.viewport.toGraph p))

theorem bodyAt_eq_lastAt (hd : s.diagram.ids.Nodup) (p : Point α) (height : α) :
    (s.bodyAt p height).map (·.id) = lastAt s s.diagram.ids p height := by
  let g := s.viewport.toGraph p
  have hcovers : s.diagram.nodes.reverse.filter (s.settings.covers · height g) =
      s.diagram.nodes.reverse.filter
        fun n => (s.diagram.node? n.id).any (s.settings.covers · height g) := by
    refine List.filter_congr fun n hn => ?_
    rw [Diagram.node?_of_mem hd (List.mem_reverse.1 hn), Option.any_some]
  rw [Session.bodyAt, lastAt, Diagram.ids, ← List.map_reverse, List.find?_map, ← List.head?_filter,
    ← List.head?_filter]
  exact congrArg (fun l => l.head?.map (·.id)) hcovers

/-- **Rows are painted in the order of the nodes, unless one of them was renamed.**  However many
rounds there are, after each one there is one row for every node.  The rows are in the order of the
nodes exactly if, of the nodes that had rows before it, those that are left come first and in the
order of these rows.  In this case the last row at a point is that of the uppermost node there.  And
it is the case after all rounds when nothing is renamed and no id comes up twice. -/
theorem order_after_round (hR : R.Lawful) (hs : Session.Reached supply s)
    (rs : List (List (Action α))) (as : List (Action α)) :
    let before := (R.rounds s rs).2.map R.id
    let now := (R.rounds s (rs ++ [as])).1
    let shown := (R.rounds s (rs ++ [as])).2.map R.id
    shown.Perm now.diagram.ids ∧
      (shown = now.diagram.ids ↔ before.filter now.diagram.isLive <+: now.diagram.ids) ∧
      (shown = now.diagram.ids → ∀ p height, (now.bodyAt p height).map (·.id) = lastAt now shown p height) ∧
      ((s.diagram.ids ++ s.diagram.supply).Nodup →
        (∀ as' ∈ rs ++ [as], ∀ a ∈ as', a.renames = false) → shown = now.diagram.ids) := by
  have hd := nodup_ids_of_reached (reached_rounds (R := R) hs (rs ++ [as]))
  simp only [rounds_append_singleton] at hd ⊢
  refine ⟨hR.ids_sync_perm hd (hR.nodup_ids_rounds hs rs), hR.ids_sync_eq_iff hd, ?_, ?_⟩
  · intro hshown p height
    rw [hshown]
    exact bodyAt_eq_lastAt hd p height
  · intro hfresh hkeep
    have hbefore := hR.aligned_rounds hs hfresh fun as' h => hkeep as' (List.mem_append_left _ h)
    have hafter := hbefore.run (hkeep as (by simp))
    exact (hR.ids_sync_eq_iff hd).2 hafter.shown_prefix

/-- The first of two nodes is removed and a third one is added before the second round. -/
theorem order_after_round_removed :
    ∃ s : Session Float32, Session.Reached ["a", "b", "c"] s ∧
      (plain.rounds s [[], [.remove "a", .add .linear ⟨10.0, 5.0⟩]]).2.map plain.id =
        ["b", "c"] := by
  let es : List (Edit Float32) := [.add .linear ⟨0.0, 0.0⟩, .add .linear ⟨400.0, 0.0⟩]
  let as : List (Action Float32) := [.remove "a", .add .linear ⟨10.0, 5.0⟩]
  obtain ⟨s, hopen⟩ := Session.exists_open? .initial ((Diagram.empty ["a", "b", "c"]).run es)
  have hstate : (Session.open? .initial ((Diagram.empty ["a", "b", "c"]).run es)).map
      (fun s => (s.diagram.ids ++ s.diagram.supply, (s.run as).diagram.ids)) =
      some (["a", "b", "c"], ["b", "c"]) := by decide +kernel
  rw [hopen, Option.map_some, Option.some.injEq, Prod.mk.injEq] at hstate
  obtain ⟨hids, hnow⟩ := hstate
  have hs : Session.Reached ["a", "b", "c"] s := ⟨.initial, es, s, [], hopen, rfl⟩
  obtain ⟨-, -, -, horder⟩ := order_after_round lawful_plain hs [[]] as
  have hfresh : (s.diagram.ids ++ s.diagram.supply).Nodup := hids ▸ by decide
  have hkeep : ∀ as' ∈ [[]] ++ [as], ∀ a ∈ as', a.renames = false := by simp [as, Action.renames]
  exact ⟨s, hs, (horder hfresh hkeep).trans hnow⟩

/-- A node that has a row is renamed.  It is still the lower one, but its row is the last one. -/
theorem not_ids_after_rename :
    ∃ s : Session Float32, Session.Reached ["a", "b"] s ∧
      let m := plain.rounds s [[], [.rename "a" "c"]]
      m.1.diagram.ids = ["c", "b"] ∧ m.2.map plain.id = ["b", "c"] ∧
        (m.1.bodyAt ⟨20.0, 20.0⟩ 80.0).map (·.id) = some "b" ∧
        lastAt m.1 (m.2.map plain.id) ⟨20.0, 20.0⟩ 80.0 = some "c" := by
  let es : List (Edit Float32) := [.add .linear ⟨0.0, 0.0⟩, .add .linear ⟨10.0, 10.0⟩]
  obtain ⟨s, hopen⟩ := Session.exists_open? .initial ((Diagram.empty ["a", "b"]).run es)
  have hstate : (Session.open? .initial ((Diagram.empty ["a", "b"]).run es)).map (fun s =>
      let m := plain.rounds s [[], [.rename "a" "c"]]
      (m.1.diagram.ids, m.2.map plain.id, (m.1.bodyAt ⟨20.0, 20.0⟩ 80.0).map (·.id),
        lastAt m.1 (m.2.map plain.id) ⟨20.0, 20.0⟩ 80.0)) =
      some (["c", "b"], ["b", "c"], some "b", some "c") := by decide +kernel
  rw [hopen, Option.map_some, Option.some.injEq] at hstate
  simp only [Prod.mk.injEq] at hstate
  exact ⟨s, ⟨.initial, es, s, [], hopen, rfl⟩, hstate⟩

end NodeRows

end Wireboard
