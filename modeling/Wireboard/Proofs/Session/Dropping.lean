import Wireboard.Proofs.Json.Grammar
import Wireboard.Proofs.Json.Record
import Wireboard.Proofs.Session.Sound

/-!
# What is dropped

When a drop makes a node, and which.

* `draggedName?_eq_some_iff`: the texts from which the name of a layer is read, as JSON;
* `Session.drop_outcome`: with a name of an enabled layer, dropped at a place of the diagram, a node of
  that layer is added, and otherwise nothing happens.
-/

namespace Wireboard

/-! ## dragged data -/

/-- The value carries the name: in an object, the members called `type` or `kind`, counted together,
are one and hold it; a list holds nothing else. -/
inductive Carries : Json → String → Prop
  | object {key name : String} {before after : List (Option String × Json)}
      (hkey : key ∈ ["type", "kind"])
      (hothers : ∀ m ∈ before ++ after, ∀ k ∈ m.1, k ∉ ["type", "kind"]) :
      Carries (.obj (before ++ (some key, .text name) :: after)) name
  | list (name : String) : Carries (.arr [.text name]) name

/-- The names of the members, if there are any, stand for texts. -/
def HasNames : Json → Prop
  | .obj members => ∀ m ∈ members, m.1 ≠ none
  | _ => True

theorem carries_of_record? {v : Json} {name : String}
    (h : Json.record? [["type", "kind"]] v = some [some (.text name)]) :
    Carries v name ∧ HasNames v := by
  cases v with
  | obj members =>
    obtain ⟨ms, hms, hfield⟩ := Json.record?_obj_eq_some_iff.1 h
    obtain rfl := Json.named?_eq_some_iff.1 hms
    refine ⟨?_, fun m hm => ?_⟩
    · obtain ⟨before, key, after, rfl, hkey, hothers⟩ := Json.field?_eq_some_some_iff.1 hfield
      rw [List.map_append, List.map_cons]
      refine .object hkey fun m hm => ?_
      rw [← List.map_append] at hm
      obtain ⟨m', hm', rfl⟩ := List.mem_map.1 hm
      exact fun k hk => Option.some.inj hk ▸ hothers m' hm'
    · obtain ⟨m', -, rfl⟩ := List.mem_map.1 hm
      exact Option.some_ne_none _
  | arr items =>
    obtain rfl := Json.record?_arr_eq_some_iff.1 h
    exact ⟨.list name, trivial⟩
  | _ => cases h

theorem Carries.record?_eq {v : Json} {name : String} (h : Carries v name) (hnames : HasNames v) :
    Json.record? [["type", "kind"]] v = some [some (.text name)] := by
  cases h with
  | list => exact Json.record?_arr_eq_some_iff.2 rfl
  | @object key _ before after hkey hothers =>
    obtain ⟨ms, hms⟩ := Json.exists_named? hnames
    refine Json.record?_obj_eq_some_iff.2 ⟨ms, hms, Json.field?_eq_some_some_iff.2 ?_⟩
    -- the members before and after the field, by their names
    obtain ⟨b, ms', rfl, hb, hms'⟩ :=
      List.map_eq_append_iff.1 (Json.named?_eq_some_iff.1 hms).symm
    obtain ⟨⟨k, v⟩, a, rfl, hm, ha⟩ := List.map_eq_cons_iff.1 hms'
    cases hm
    refine ⟨b, k, a, rfl, hkey, fun m hm => ?_⟩
    have hmem : (some m.1, m.2) ∈ before ++ after := by
      rw [← hb, ← ha, ← List.map_append]
      exact List.mem_map_of_mem hm
    exact hothers _ hmem m.1 rfl

theorem record?_eq_some_iff {v : Json} {name : String} :
    Json.record? [["type", "kind"]] v = some [some (.text name)] ↔ Carries v name ∧ HasNames v :=
  ⟨carries_of_record?, fun h => h.1.record?_eq h.2⟩

/-- The texts from which a name is read. -/
theorem draggedName?_eq_some_iff {raw name : String} : draggedName? raw = some name ↔
    ∃ v, Json.Grammar.Text raw.toList v ∧ Carries v name ∧ HasNames v := by
  have hrecord : draggedName? raw = some name ↔ ∃ v, Json.parse? raw = some v ∧
      Json.record? [["type", "kind"]] v = some [some (.text name)] := by
    constructor
    · intro h
      obtain ⟨v, hv, h⟩ := Option.bind_eq_some_iff.1 h
      obtain ⟨fields, hfields, h⟩ := Option.bind_eq_some_iff.1 h
      split at h
      · next w =>
        cases w with
        | str s =>
          obtain rfl : s = some name := h
          exact ⟨v, hv, hfields⟩
        | _ => cases h
      · cases h
    · rintro ⟨v, hv, hrecord⟩
      simp [draggedName?, hv, hrecord, Json.text, Json.string?]
  rw [hrecord]
  simp only [Json.parse?_eq_some_iff, record?_eq_some_iff]

/-- One name that is no text spoils the data, whatever else is in them. -/
theorem draggedName?_eq_none {raw : String} {v : Json} (h : Json.Grammar.Text raw.toList v)
    (hnames : ¬HasNames v) : draggedName? raw = none := by
  rw [Option.eq_none_iff_forall_ne_some]
  intro name hname
  obtain ⟨w, hw, -, hwnames⟩ := draggedName?_eq_some_iff.1 hname
  have heq : some v = some w :=
    (Json.parse?_eq_some_iff.2 h).symm.trans (Json.parse?_eq_some_iff.2 hw)
  obtain rfl := Option.some.inj heq
  exact hnames hwnames

/-- Dragged data that name the layer. -/
def NamesLayer (raw : String) (l : Layer) : Prop :=
  ∃ v name, Json.Grammar.Text raw.toList v ∧ Carries v name ∧ HasNames v ∧
    (trimmed name = l.tag ∨ trimmed name = l.short)

theorem namesLayer_iff {raw : String} {l : Layer} :
    NamesLayer raw l ↔ (draggedName? raw).bind Layer.ofName? = some l := by
  simp only [Option.bind_eq_some_iff, draggedName?_eq_some_iff, Layer.ofName?_eq_some_iff]
  constructor
  · rintro ⟨v, name, hv, hcarries, hnames, hl⟩
    exact ⟨name, ⟨v, hv, hcarries, hnames⟩, hl⟩
  · rintro ⟨name, ⟨v, hv, hcarries, hnames⟩, hl⟩
    exact ⟨v, name, hv, hcarries, hnames, hl⟩

/-! ## drops -/

namespace Session

variable {α : Type} [Scalar α] (s : Session α)

/-- Where a drop at a place of the screen puts a node. -/
def dropPlace (p : Point α) : Point α := s.viewport.toGraph (p - s.settings.dropGrip)

/-- The session after the layer has been put at a place of the diagram, under an id that is drawn. -/
def added (l : Layer) (q : Point α) (id : String) (rest : List String) : Session α :=
  { s with diagram := { s.diagram with
      nodes := s.diagram.nodes ++ [⟨id, l, l.defaults, q, none⟩], supply := rest } }

theorem add_of_finite {l : Layer} {q : Point α} (hq : q.isFinite = true)
    (hfresh : ∃ id ∈ s.diagram.supply, id ∉ s.diagram.ids) : ∃ skipped id rest,
      s.diagram.supply = skipped ++ id :: rest ∧ (∀ x ∈ skipped, x ∈ s.diagram.ids) ∧
        id ∉ s.diagram.ids ∧ s.add l q = (some id, s.added l q id rest) := by
  obtain ⟨id, rest, hdraw⟩ := exists_drawFresh hfresh
  obtain ⟨hid, skipped, hsupply, hskipped⟩ := drawFresh_eq_some hdraw
  refine ⟨skipped, id, rest, hsupply, hskipped, hid, ?_⟩
  simp only [add, Diagram.add, if_pos hq, hdraw]
  rfl

theorem add_of_not_finite {l : Layer} {q : Point α} (hq : ¬q.isFinite = true) :
    s.add l q = (none, s) := by
  simp only [add, Diagram.add, if_neg hq]

/-- **What a drop does.**  From dragged data that name an enabled layer, at a place that is one of the
diagram, there comes about one node: of this layer, with its defaults, there, above all others, under
the first id of the supply that no node has.  Nothing else changes; and if the data are anything else,
or the place is none, then nothing at all. -/
theorem drop_outcome (hfresh : ∃ id ∈ s.diagram.supply, id ∉ s.diagram.ids) (raw : String)
    (p : Point α) :
    (∀ l, NamesLayer raw l → l ∉ s.settings.disabled → (s.dropPlace p).isFinite = true →
      ∃ skipped id rest, s.diagram.supply = skipped ++ id :: rest ∧
        (∀ x ∈ skipped, x ∈ s.diagram.ids) ∧ id ∉ s.diagram.ids ∧
        s.drop raw p = (some id, s.added l (s.dropPlace p) id rest)) ∧
    ((¬∃ l, NamesLayer raw l ∧ l ∉ s.settings.disabled ∧ (s.dropPlace p).isFinite = true) →
      s.drop raw p = (none, s)) := by
  have henabled : ∀ l, s.settings.isEnabled l = true ↔ l ∉ s.settings.disabled := fun l => by
    simp [Settings.isEnabled]
  constructor
  · intro l hl hdisabled hplace
    rw [drop, namesLayer_iff.1 hl]
    simp only [dropLayer, if_pos ((henabled l).2 hdisabled)]
    exact s.add_of_finite hplace hfresh
  · intro hnone
    cases hl : (draggedName? raw).bind Layer.ofName? with
    | none => simp only [drop, hl]
    | some l =>
      simp only [drop, hl, dropLayer, henabled]
      split
      · next hdisabled =>
        exact s.add_of_not_finite fun hplace => hnone ⟨l, namesLayer_iff.2 hl, hdisabled, hplace⟩
      · rfl

/-- Data with an escape in the name of a field, blanks around the name of the layer, and more that
does not matter, are dropped where the first candidate for an id is in use. -/
theorem drop_outcome_escaped :
    ∃ s : Session Float32, Reached ["a", "a", "b"] s ∧
      s.drop "\x7b\"id\":[-1.5e3],\"\\u006bind\":\" max-pool \"\x7d" ⟨100.0, 100.0⟩ =
        (some "b", s.added .maxPool ⟨40.0, 50.0⟩ "b" []) := by
  let es : List (Edit Float32) := [.add .linear ⟨0.0, 0.0⟩]
  obtain ⟨s, hopen⟩ := exists_open? .initial ((Diagram.empty ["a", "a", "b"]).run es)
  have hs : Reached ["a", "a", "b"] s := ⟨.initial, es, s, [], hopen, rfl⟩
  have hstate : (open? .initial ((Diagram.empty ["a", "a", "b"]).run es)).map (fun s =>
      (s.diagram.supply, s.diagram.ids, s.settings.disabled, s.dropPlace ⟨100.0, 100.0⟩)) =
      some (["a", "b"], ["a"], [], ⟨40.0, 50.0⟩) := by
    decide +kernel
  rw [hopen, Option.map_some, Option.some.injEq, Prod.mk.injEq, Prod.mk.injEq,
    Prod.mk.injEq] at hstate
  obtain ⟨hsupply, hids, hdisabled, hplace⟩ := hstate
  have hnames : NamesLayer "\x7b\"id\":[-1.5e3],\"\\u006bind\":\" max-pool \"\x7d" .maxPool :=
    namesLayer_iff.2 (by decide +kernel)
  obtain ⟨skipped, id, rest, hdrawn, -, hid, hdrop⟩ :=
    (s.drop_outcome (by simp [hsupply, hids]) _ ⟨100.0, 100.0⟩).1 .maxPool hnames
      (by simp [hdisabled]) (by rw [hplace]; decide +kernel)
  rw [hplace] at hdrop
  rw [hids] at hid
  rw [hsupply] at hdrawn
  -- the first candidate is the node's
  rcases skipped with _ | ⟨x, _ | ⟨y, skipped⟩⟩
  · simp_all
  · cases hdrawn
    exact ⟨s, hs, hdrop⟩
  · simp at hdrawn

/-- A member whose name is no text is not passed over like other members: with it, the data name no
layer. -/
theorem drop_half_name_refused :
    ∃ s : Session Float32, Reached ["a"] s ∧ (∃ id ∈ s.diagram.supply, id ∉ s.diagram.ids) ∧
      (∃ v, Json.Grammar.Text "\x7b\"type\":\"LinearLayer\",\"\\ud800\":0\x7d".toList v ∧
        Carries v "LinearLayer") ∧
      trimmed "LinearLayer" = Layer.linear.tag ∧ Layer.linear ∉ s.settings.disabled ∧
      (s.dropPlace ⟨100.0, 100.0⟩).isFinite = true ∧
      s.drop "\x7b\"type\":\"LinearLayer\",\"\\ud800\":0\x7d" ⟨100.0, 100.0⟩ = (none, s) := by
  obtain ⟨s, hopen⟩ := exists_open? .initial (Diagram.empty ["a"] : Diagram Float32)
  have hs : Reached ["a"] s := ⟨.initial, [], s, [], hopen, rfl⟩
  have hstate : (open? .initial (Diagram.empty ["a"] : Diagram Float32)).map (fun s =>
      (s.diagram.supply, s.diagram.ids, s.settings.disabled, s.dropPlace ⟨100.0, 100.0⟩)) =
      some (["a"], [], [], ⟨40.0, 50.0⟩) := by
    decide +kernel
  rw [hopen, Option.map_some, Option.some.injEq, Prod.mk.injEq, Prod.mk.injEq,
    Prod.mk.injEq] at hstate
  obtain ⟨hsupply, hids, hdisabled, hplace⟩ := hstate
  let v : Json := .obj [(some "type", .text "LinearLayer"), (none, .num ⟨false, [0], [], none⟩)]
  have hlegible : v.Legible := by
    refine .obj fun m hm => ?_
    simp only [List.mem_cons, List.not_mem_nil, or_false] at hm
    rcases hm with rfl | rfl
    · exact .str _
    · exact .num ⟨by simp, by simp, by simp⟩
  have hprint : v.print .compact = "\x7b\"type\":\"LinearLayer\",\"\\ud800\":0\x7d" := by
    decide +kernel
  have htext := Json.parse?_eq_some_iff.1 (Json.parse?_print hlegible .compact)
  rw [hprint] at htext
  have hcarries : Carries v "LinearLayer" :=
    @Carries.object "type" "LinearLayer" [] [(none, _)] (by decide) (by simp)
  have hname := draggedName?_eq_none htext (by simp [v, HasNames])
  exact ⟨s, hs, by simp [hsupply, hids], ⟨v, htext, hcarries⟩, by decide +kernel,
    by simp [hdisabled], by rw [hplace]; decide +kernel, by rw [drop, hname]; rfl⟩

end Session

end Wireboard
