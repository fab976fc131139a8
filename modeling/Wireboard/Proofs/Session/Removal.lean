import Wireboard.Proofs.Rows.Links

/-!
# Removing a node

A node that is removed takes its links with it, and the selection of it, and a gesture that refers to
it.  Nothing else changes, and nothing else is to be seen in the rows.

* `Session.Erased`: what a session is like without one of its nodes;
* `Session.RowsErased`: what the next sync does to rows that were up to date;
* `Session.remove_erases`: removing a node, or deleting the selected one, does that and no more.
-/

set_option linter.unusedSectionVars false

namespace Wireboard

variable {α : Type} [Scalar α]

/-! ## the rows of a node that is gone -/

namespace NodeRows

variable {ρ : Type} {R : NodeRows α ρ} {d : Diagram α} {rows : List ρ} {id : String}

theorem Current.node?_without (h : R.Current d rows) (id : String) {r : ρ} (hr : r ∈ rows) :
    (R.id r = id ∧ (d.without id).node? (R.id r) = none) ∨
      (R.id r ≠ id ∧ ∃ n, (d.without id).node? (R.id r) = some n ∧ R.isAt n r = true) := by
  by_cases hid : R.id r = id
  · exact .inl ⟨hid, hid ▸ Diagram.node?_without_self d (R.id r)⟩
  · obtain ⟨n, hn, hat⟩ := h.placed r hr
    exact .inr ⟨hid, n, (Diagram.node?_without d hid).trans hn, hat⟩

theorem Current.refreshed_without (h : R.Current d rows) :
    rows.filterMap (R.refresh? (d.without id)) = rows.filter (R.id · != id) := by
  rw [← List.filterMap_eq_filter]
  refine List.filterMap_congr fun r hr => ?_
  rcases h.node?_without id hr with ⟨hid, hn⟩ | ⟨hid, n, hn, hat⟩
  · rw [refresh?, hn, Option.map_none, Option.guard_eq_none_iff.2 (by simp [hid])]
  · rw [refresh?, hn, Option.map_some, place_eq, if_pos hat, Option.guard_pos (by simpa using hid)]

theorem Current.missing_without (h : R.Current d rows) : R.missing (d.without id) rows = [] :=
  missing_eq_nil fun n hn =>
    h.complete n.id (Diagram.mem_ids.2 ⟨n, (List.mem_filter.1 hn).1, rfl⟩)

theorem Current.astray?_without (h : R.Current d rows) {r : ρ} (hr : r ∈ rows) :
    R.astray? (d.without id) r = none := by
  rcases h.node?_without id hr with ⟨-, hn⟩ | ⟨-, n, hn, hat⟩
  · rw [astray?, hn, Option.filter_none]
  · rw [astray?, hn, Option.filter_some, hat]
    rfl

theorem Current.sync_without (hR : R.Lawful) (hd : d.Sound) (h : R.Current d rows) :
    R.sync (d.without id) rows = rows.filter (R.id · != id) := by
  rw [hR.sync_eq (hd.without id).ids_nodup, h.refreshed_without, h.missing_without, List.append_nil]

/-- The rows of the node are removed, and none is written or appended. -/
theorem Current.mirror?_without (hR : R.Lawful) (hd : d.Sound) (h : R.Current d rows)
    {fuel : Nat} (hfuel : rows.length < fuel) :
    ∃ c, R.mirror? (d.without id) fuel rows = some c ∧ c.rows = rows.filter (R.id · != id) ∧
      c.log.filterMap RowEdit.written? = [] ∧ c.log.filterMap RowEdit.pushed? = [] := by
  obtain ⟨hwritten, -, hpushed⟩ := edits_spec (R := R) (d := d.without id) rows 0
  refine ⟨_, hR.mirror?_eq (hd.without id).ids_nodup hfuel, h.sync_without hR hd, ?_, ?_⟩
  · rw [h.missing_without, List.map_nil, List.append_nil, hwritten, List.filterMap_eq_nil_iff]
    intro r hr
    rw [h.astray?_without hr, Option.map_none]
  · rw [h.missing_without, List.map_nil, List.append_nil, hpushed]

end NodeRows

namespace LinkRows

variable {ρ : Type} {R : LinkRows ρ} {d : Diagram α} {rows : List ρ} {id : String}

/-- Rows that stand for the links of the diagram, but for these at the node, stand for the links
without it. -/
theorem links_without (h : rows.map R.link = d.links) :
    (d.without id).links = (rows.filter fun r => !(R.link r).touches id).map R.link := by
  rw [Diagram.without, ← h, List.filter_map]
  rfl

theorem links_sync_without (hR : ∀ l, R.link (R.ofLink l) = l) (h : rows.map R.link = d.links) :
    ((R.sync (d.without id) rows).apply rows).map R.link =
      (rows.filter fun r => !(R.link r).touches id).map R.link := by
  rw [← links_without h]
  exact links_sync hR _ _

/-- Rows that say no more than what they stand for are as they were. -/
theorem sync_without (hrows : ∀ r ∈ rows, R.ofLink (R.link r) = r)
    (h : rows.map R.link = d.links) :
    (R.sync (d.without id) rows).apply rows = rows.filter fun r => !(R.link r).touches id := by
  rw [sync]
  split
  · next hsame =>
    -- as many links as before, so none of them was at the node
    rw [links_without h] at hsame
    have hlength := congrArg List.length hsame
    rw [List.length_map, List.length_map] at hlength
    rw [RowChange.apply, List.filter_eq_self.2]
    exact List.length_filter_eq_length_iff.1 hlength.symm
  · rw [RowChange.apply, links_without h, List.map_map]
    exact (List.map_congr_left fun r hr => hrows r (List.mem_filter.1 hr).1).trans (List.map_id _)

end LinkRows

theorem Selection.sync_forget {sel : Selection} {rows : List String} (h : rows = sel.rows)
    (id : String) : ((sel.forget id).sync rows).apply rows = rows.filter (· != id) := by
  have hrows : (sel.forget id).rows = rows.filter (· != id) := by
    subst h
    rcases sel with ⟨_ | x⟩
    · rfl
    · by_cases hx : x = id <;> simp [forget, contains, Selection.rows, Selection.none, hx]
  rw [← hrows]
  exact apply_sync _ _

theorem Gesture.refersTo_iff {g : Gesture α} {id : String} :
    g.refersTo id = true ↔ g.dragged? = some id ∨ g.source? = some id ∨ g.snap? = some id := by
  cases g <;> simp [refersTo, dragged?, source?, snap?]

/-! ## the session without a node -/

namespace Session

variable {s s' : Session α} {id : String}

/-- What is left of the session `s` when its node `id` is gone: nothing that names it, and everything
else. -/
structure Erased (s : Session α) (id : String) (s' : Session α) : Prop where
  node : s'.diagram.node? id = none
  link : ∀ l ∈ s'.diagram.links, l.source ≠ id ∧ l.target ≠ id
  unselected : s'.selection.id ≠ some id
  unheld : s'.gesture.dragged? ≠ some id ∧ s'.gesture.source? ≠ some id ∧ s'.gesture.snap? ≠ some id
  nodes : s'.diagram.nodes = s.diagram.nodes.filter (·.id != id)
  links : s'.diagram.links = s.diagram.links.filter fun l => l.source != id && l.target != id
  selection : s.selection.id ≠ some id → s'.selection = s.selection
  gesture : s'.gesture = if s.gesture.dragged? = some id ∨ s.gesture.source? = some id ∨
    s.gesture.snap? = some id then .idle else s.gesture
  viewport : s'.viewport = s.viewport
  settings : s'.settings = s.settings
  supply : s'.diagram.supply = s.diagram.supply

/-- What syncs with the session `s'` do to rows that were up to date with `s`: they remove those in
which the node `id` occurs.  Rows of links are made anew when there are fewer of them; they are the same
ones if they say no more than what they stand for. -/
structure RowsErased (s : Session α) (id : String) (s' : Session α) : Prop where
  nodes : ∀ {ρ : Type} {R : NodeRows α ρ}, R.Lawful → ∀ {rows}, R.Current s.diagram rows →
    R.sync s'.diagram rows = rows.filter (R.id · != id) ∧
    ∀ fuel, rows.length < fuel → ∃ c, R.mirror? s'.diagram fuel rows = some c ∧
      c.rows = rows.filter (R.id · != id) ∧
      c.log.filterMap RowEdit.written? = [] ∧ c.log.filterMap RowEdit.pushed? = []
  links : ∀ {ρ : Type} {R : LinkRows ρ}, (∀ l, R.link (R.ofLink l) = l) →
    ∀ {rows}, rows.map R.link = s.diagram.links →
      let kept := rows.filter fun r => R.source r != id && R.target r != id
      ((R.sync s'.diagram rows).apply rows).map R.link = kept.map R.link ∧
        ((∀ r ∈ rows, R.ofLink (R.link r) = r) → (R.sync s'.diagram rows).apply rows = kept)
  selection : ∀ {rows}, rows = s.selection.rows →
    (s'.selection.sync rows).apply rows = rows.filter (· != id)

theorem erased_without (s : Session α) (id : String) : Erased s id (s.without id) where
  node := Diagram.node?_without_self s.diagram id
  link l hl := by
    have := (List.mem_filter.1 hl).2
    simpa [Link.touches] using this
  unselected := by
    change (s.selection.forget id).id ≠ some id
    rw [Selection.forget, Selection.contains]
    split
    · simp [Selection.none]
    · next h => simpa using h
  unheld := by
    rw [without, ← not_or, ← not_or, ← Gesture.refersTo_iff, Bool.not_eq_true]
    cases h : s.gesture.refersTo id with
    | true => rfl
    | false => exact h
  nodes := rfl
  links := List.filter_congr fun l _ => by rw [Link.touches, Bool.not_or]; rfl
  selection h := by
    change s.selection.forget id = s.selection
    rw [Selection.forget, Selection.contains, if_neg (by simpa using h)]
  gesture := if_congr Gesture.refersTo_iff rfl rfl
  viewport := rfl
  settings := rfl
  supply := rfl

theorem rowsErased_without (hd : s.diagram.Sound) (id : String) :
    RowsErased s id (s.without id) where
  nodes hR rows h := ⟨h.sync_without hR hd, fun _ hfuel => h.mirror?_without hR hd hfuel⟩
  links {ρ R} hR rows h := by
    have hkept : (rows.filter fun r => !(R.link r).touches id) =
        rows.filter fun r => R.source r != id && R.target r != id :=
      List.filter_congr fun r _ => by rw [Link.touches, Bool.not_or]; rfl
    rw [← hkept]
    exact ⟨LinkRows.links_sync_without hR h, fun hrows => LinkRows.sync_without hrows h⟩
  selection h := Selection.sync_forget h id

/-- It does not matter that the selection is taken away first. -/
theorem without_of_selected (h : s.selection.id = some id) :
    { s with selection := .none }.without id = s.without id := by
  simp [without, Selection.forget, Selection.contains, Selection.none, h]

variable {supply : List String}

/-- **Removing a node leaves no trace of it and nothing else undone.**  This holds for every node of a
session, whatever is selected and whichever gesture is in progress, and for all ways of removing the node
that is selected. -/
theorem remove_erases (h : Reached supply s) (hid : id ∈ s.diagram.ids) :
    ∃ s', s.perform (.remove id) = (.flag true, s') ∧
      (s.selection.id = some id → s.perform .deleteSelected = (.flag true, s') ∧
        ∀ k, k = .delete ∨ k = .backspace → s.perform (.key k false) = (.flag true, s')) ∧
      Erased s id s' ∧ RowsErased s id s' := by
  refine ⟨s.without id, ?_, fun hsel => ?_, erased_without s id,
    rowsErased_without h.sound.diagram id⟩
  · rw [perform, remove_of_live hid]
    rfl
  · have hdelete : s.deleteSelected = (true, s.without id) := by
      rw [deleteSelected_of_live hsel hid, without_of_selected hsel]
    refine ⟨by rw [perform, hdelete]; rfl, ?_⟩
    rintro k (rfl | rfl) <;> rw [perform, key, if_neg (by decide), hdelete] <;> rfl

/-- The selected node is deleted while a link that would end at it is being drawn. -/
theorem remove_erases_snapped :
    ∃ s : Session Float32, Reached ["a", "b", "c"] s ∧ s.gesture.snap? = some "b" ∧
      ∃ s', s.perform (.key .delete false) = (.flag true, s') ∧ Erased s "b" s' ∧
        s'.gesture = .idle ∧ s'.diagram.ids = ["a", "c"] ∧ s'.diagram.links = [⟨"a", "c"⟩] := by
  let es : List (Edit Float32) := [.add .linear ⟨0.0, 0.0⟩, .add .linear ⟨400.0, 0.0⟩,
    .add .linear ⟨0.0, 300.0⟩, .toggle "a" "b", .toggle "a" "c", .toggle "b" "c"]
  let as : List (Action Float32) :=
    [.select "b", .press ⟨⟨278.0, 50.0⟩, .primary, false, .output "a"⟩, .move ⟨390.0, 55.0⟩]
  obtain ⟨s, hopen⟩ := exists_open? .initial ((Diagram.empty ["a", "b", "c"]).run es)
  have hstate : (open? .initial ((Diagram.empty ["a", "b", "c"]).run es)).map (fun s =>
      ((s.run as).selection.id, (s.run as).gesture.snap?, (s.run as).diagram.ids,
        (s.run as).diagram.links)) =
      some (some "b", some "b", ["a", "b", "c"], [⟨"a", "b"⟩, ⟨"a", "c"⟩, ⟨"b", "c"⟩]) := by
    decide +kernel
  rw [hopen, Option.map_some, Option.some.injEq] at hstate
  simp only [Prod.mk.injEq] at hstate
  obtain ⟨hsel, hsnap, hids, hlinks⟩ := hstate
  have hs : Reached ["a", "b", "c"] (s.run as) := ⟨.initial, es, s, as, hopen, rfl⟩
  have hb : "b" ∈ (s.run as).diagram.ids := hids ▸ by decide
  obtain ⟨s', -, hkeys, herased, -⟩ := remove_erases hs hb
  refine ⟨s.run as, hs, hsnap, s', (hkeys hsel).2 .delete (.inl rfl), herased, ?_, ?_, ?_⟩
  · rw [herased.gesture, if_pos (.inr (.inr hsnap))]
  · have hfilter : s'.diagram.ids = (s.run as).diagram.ids.filter (· != "b") := by
      rw [Diagram.ids, herased.nodes, Diagram.ids, List.filter_map]
      rfl
    rw [hfilter, hids]
    decide
  · rw [herased.links, hlinks]
    decide

end Session

end Wireboard
