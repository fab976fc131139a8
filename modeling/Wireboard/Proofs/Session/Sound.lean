import Wireboard.Proofs.Session.Steps
import Wireboard.Proofs.Settings.Repaired

/-!
# Sound sessions

The selection and the gesture of a session refer to nodes by ids of their own, next to the ids in
links.  No action leaves one of them behind.

* `Gesture.Sound ids`: a gesture refers to nodes with these ids only, and a link being drawn shows a
  preview, which is snapped exactly when there is a node to snap to, and never to its own source;
* `Session.Sound`: the diagram is sound, the selected node is live, and so are the gesture's nodes;
* `Session.Reached supply s`: some run of actions leads to `s` from a session opened on a diagram
  that some run of edits makes.  `Reached.sound` says that all these sessions are sound.
-/

set_option linter.unusedSectionVars false

namespace Wireboard

/-! ## gestures -/

namespace Gesture

variable {α : Type} {g : Gesture α} {ids : List String}

/-- The gesture fits the nodes that there are. -/
def Sound (ids : List String) : Gesture α → Prop
  | dragging node _ _ _ => node ∈ ids
  | wiring source preview snap =>
    source ∈ ids ∧ (∃ shown, preview = some shown ∧ shown.snapped = snap.isSome) ∧
      ∀ t, snap = some t → t ∈ ids ∧ t ≠ source
  | _ => True

theorem Sound.mono (h : g.Sound ids) {ids' : List String} (hsub : ∀ id ∈ ids, id ∈ ids') :
    g.Sound ids' := by
  cases g with
  | idle => trivial
  | panning anchor origin => trivial
  | dragging node grab press moved => exact hsub _ h
  | wiring source preview snap =>
    obtain ⟨hsource, hpreview, hsnap⟩ := h
    exact ⟨hsub _ hsource, hpreview, fun t ht => ⟨hsub t (hsnap t ht).1, (hsnap t ht).2⟩⟩

theorem rename_snap (old new : String) (snap : Option String) :
    (if snap = some old then some new else snap) =
      snap.map fun x => if x = old then new else x := by
  cases snap with
  | none => rfl
  | some t => by_cases h : t = old <;> simp [h]

theorem Sound.rename (h : g.Sound ids) {id name : String} (free : name ∈ ids → name = id) :
    (g.rename id name).Sound (ids.map fun x => if x = id then name else x) := by
  have hmem : ∀ {x}, x ∈ ids → (if x = id then name else x) ∈
      ids.map fun x => if x = id then name else x := fun hx => List.mem_map_of_mem hx
  cases g with
  | idle => trivial
  | panning anchor origin => trivial
  | dragging node grab press moved => exact hmem h
  | wiring source preview snap =>
    obtain ⟨hsource, ⟨shown, hshown, hsnapped⟩, hsnap⟩ := h
    simp only [Gesture.rename, rename_snap]
    refine ⟨hmem hsource, ⟨shown, hshown, by simpa using hsnapped⟩, ?_⟩
    intro t ht
    obtain ⟨x, hx, rfl⟩ := Option.map_eq_some_iff.1 ht
    obtain ⟨hlive, hne⟩ := hsnap x hx
    -- renaming keeps different live ids different, so the link still has two ends
    exact ⟨hmem hlive, fun he => hne (Diagram.rename_injOn free x hlive source hsource he)⟩

theorem Sound.without (h : g.Sound ids) (id : String) :
    (if g.refersTo id then idle else g).Sound (ids.filter (· != id)) := by
  split
  · trivial
  · next href =>
    have hmem : ∀ {x}, x ∈ ids → x ≠ id → x ∈ ids.filter (· != id) := fun hx hne =>
      List.mem_filter.2 ⟨hx, by simpa using hne⟩
    cases g with
    | idle => trivial
    | panning anchor origin => trivial
    | dragging node grab press moved => exact hmem h (by simpa [refersTo] using href)
    | wiring source preview snap =>
      obtain ⟨hsource, hpreview, hsnap⟩ := h
      obtain ⟨hs, ht⟩ : source ≠ id ∧ ¬ snap = some id := by simpa [refersTo] using href
      refine ⟨hmem hsource hs, hpreview, ?_⟩
      rintro t rfl
      exact ⟨hmem (hsnap t rfl).1 (by simpa using ht), (hsnap t rfl).2⟩

end Gesture

/-! ## sessions -/

namespace Session

variable {α : Type} [Scalar α] {s s' : Session α}

/-- Diagram, selection and gesture fit together. -/
structure Sound (s : Session α) : Prop where
  diagram : s.diagram.Sound
  selection : ∀ id, s.selection.id = some id → id ∈ s.diagram.ids
  gesture : s.gesture.Sound s.diagram.ids

theorem sound_of_open {settings : Settings α} {d : Diagram α} (hd : d.Sound)
    (h : open? settings d = some s) : s.Sound := by
  obtain ⟨v, -, rfl⟩ := Option.map_eq_some_iff.1 h
  exact ⟨hd, by simp [Selection.none], trivial⟩

theorem Sound.with_viewport (h : s.Sound) (v : Viewport α) : Sound { s with viewport := v } :=
  ⟨h.diagram, h.selection, h.gesture⟩

theorem Sound.with_gesture (h : s.Sound) {g : Gesture α} (hg : g.Sound s.diagram.ids) :
    Sound { s with gesture := g } :=
  ⟨h.diagram, h.selection, hg⟩

theorem Sound.with_selection (h : s.Sound) {id : String} (hid : id ∈ s.diagram.ids) :
    Sound { s with selection := .only id } := by
  refine ⟨h.diagram, ?_, h.gesture⟩
  intro x hx
  obtain rfl : id = x := Option.some.inj hx
  exact hid

theorem Sound.with_no_selection (h : s.Sound) : Sound { s with selection := .none } :=
  ⟨h.diagram, by simp [Selection.none], h.gesture⟩

/-- Edits that take away no id touch nothing that selection and gesture refer to. -/
theorem Sound.with_diagram (h : s.Sound) {d : Diagram α} (hd : d.Sound)
    (hsub : ∀ id ∈ s.diagram.ids, id ∈ d.ids) : Sound { s with diagram := d } :=
  ⟨hd, fun id hid => hsub id (h.selection id hid), h.gesture.mono hsub⟩

/-! ## the pointer -/

theorem Sound.wiring (h : s.Sound) {source : String} {p : Point α} {preview : Preview α}
    {snap : Option String} (hp : s.previewTo source p = some (preview, snap)) :
    Sound { s with gesture := .wiring source (some preview) snap } := by
  obtain ⟨hsource, hsnapped, hsnap⟩ := previewTo_eq_some hp
  exact h.with_gesture ⟨hsource, ⟨preview, rfl, hsnapped⟩, hsnap⟩

theorem Sound.press (h : s.Sound) (e : Press α) : (s.press e).Sound := by
  unfold Session.press
  split
  · exact h
  · split
    · exact h.with_gesture trivial
    · split
      · exact h.with_gesture trivial
      · exact h.with_no_selection
    · next id _ _ =>
      unfold startDragging
      split
      · next n hn =>
        exact h.with_gesture (Diagram.isLive_iff.1 (Diagram.isLive_of_node? hn))
      · exact h
    · unfold startWiring
      split
      · next hp => exact h.wiring hp
      · exact h
    · exact h

theorem Sound.move (h : s.Sound) (p : Point α) : (s.move p).Sound := by
  unfold Session.move
  split
  · exact h
  · split
    · exact h
    · exact h.with_viewport _
    · next id grab press moved hg =>
      split
      · next d hd =>
        -- the dragged node takes another position and keeps its id
        obtain ⟨-, -, rfl⟩ := Diagram.setPosition_eq_ok_iff.1 hd
        have hids : (s.diagram.modify id
            ({ · with position := s.viewport.toGraph p - grab })).ids = s.diagram.ids :=
          Diagram.ids_modify fun _ => rfl
        have hlive : id ∈ s.diagram.ids := by simpa [hg, Gesture.Sound] using h.gesture
        refine ⟨h.diagram.of_nodes hids rfl, ?_, ?_⟩
        · rw [hids]; exact h.selection
        · rw [hids]; exact hlive
      · exact h.with_gesture trivial
    · split
      · next hp => exact h.wiring hp
      · exact h.with_gesture trivial

/-- A release over an input toggles one link, which leaves the nodes as they are. -/
theorem ids_finishWiring (s : Session α) (source : String) (p : Point α) (target : Target) :
    (s.finishWiring source p target).ids = s.diagram.ids := by
  rw [finishWiring_eq]
  split
  · exact Diagram.ids_step_of_keepsIds rfl
  · rfl

theorem Sound.release (h : s.Sound) (p : Point α) (target : Target) :
    (s.release p target).Sound := by
  unfold Session.release
  split
  · next id grab press hg =>
    have hidle : Sound { s with gesture := .idle } := h.with_gesture trivial
    split
    · next hlive => exact hidle.with_selection (Diagram.isLive_iff.1 hlive)
    · exact hidle
  · next source preview snap hg =>
    have hd : (s.finishWiring source p target).Sound := by
      rw [finishWiring_eq]
      split
      · exact h.diagram.change (Diagram.step_change _ _)
      · exact h.diagram
    exact ⟨hd, by rw [ids_finishWiring]; exact h.selection, trivial⟩
  · exact h.with_gesture trivial

/-! ## edits, keys and the selection -/

theorem Sound.edit (h : s.Sound) {e : Edit α} (he : e.keepsIds = true) :
    Sound { s with diagram := s.diagram.step e } := by
  refine h.with_diagram (h.diagram.change (Diagram.step_change _ e)) ?_
  rw [Diagram.ids_step_of_keepsIds he]
  exact fun _ hid => hid

theorem Sound.add (h : s.Sound) (l : Layer) (p : Point α) : (s.add l p).2.Sound := by
  rw [add_snd]
  exact h.with_diagram (h.diagram.change (Diagram.step_change _ _))
    (Diagram.ids_subset_step_add _ l p)

theorem Sound.dropLayer (h : s.Sound) (l : Layer) (p : Point α) : (s.dropLayer l p).2.Sound := by
  rcases dropLayer_snd s l p with hd | hd
  · rw [hd]; exact h
  · rw [hd]; exact h.add l _

theorem Sound.drop (h : s.Sound) (raw : String) (p : Point α) : (s.drop raw p).2.Sound := by
  rcases drop_snd s raw p with hd | ⟨l, hd⟩
  · rw [hd]; exact h
  · rw [hd]; exact h.dropLayer l p

theorem Sound.rename (h : s.Sound) (id new : String) : (s.rename id new).2.Sound := by
  rcases hop : s.rename id new with ⟨_ | _, s'⟩
  · rw [rename_eq_false hop]; exact h
  · obtain ⟨name, hd, rfl⟩ := rename_eq_true hop
    obtain ⟨-, -, hlive, hfree, -⟩ := Diagram.rename_eq_ok_iff.1 hd
    have hids := Diagram.ids_renamed s.diagram id name
    refine ⟨h.diagram.renamed hfree, ?_, by rw [hids]; exact h.gesture.rename hfree⟩
    intro x hx
    rw [hids]
    simp only [Selection.rename, Selection.contains, beq_iff_eq] at hx
    split at hx
    · obtain rfl : name = x := Option.some.inj hx
      exact List.mem_map.2 ⟨id, hlive, if_pos rfl⟩
    · next hsel =>
      refine List.mem_map.2 ⟨x, h.selection x hx, if_neg ?_⟩
      rintro rfl
      exact hsel hx

theorem Sound.without (h : s.Sound) (id : String) : (s.without id).Sound := by
  have hids := Diagram.ids_without s.diagram id
  refine ⟨h.diagram.without id, ?_, ?_⟩
  · intro x hx
    simp only [Session.without, Selection.forget, Selection.contains, beq_iff_eq] at hx
    split at hx
    · cases hx
    · next hsel =>
      refine Diagram.mem_ids_without.2 ⟨h.selection x hx, ?_⟩
      rintro rfl
      exact hsel hx
  · rw [Session.without, hids]
    exact h.gesture.without id

theorem Sound.remove (h : s.Sound) (id : String) : (s.remove id).2.Sound := by
  by_cases hlive : id ∈ s.diagram.ids
  · rw [remove_of_live hlive]; exact h.without id
  · rw [remove_of_not_live hlive]; exact h

theorem Sound.deleteSelected (h : s.Sound) : s.deleteSelected.2.Sound := by
  cases hsel : s.selection.id with
  | none => rw [deleteSelected_of_none hsel]; exact h
  | some id =>
    rw [deleteSelected_of_live hsel (h.selection id hsel)]
    exact h.with_no_selection.without id

theorem Sound.key (h : s.Sound) (k : Key) (typing : Bool) : (s.key k typing).2.Sound := by
  have hdelete : (if typing then (false, s) else s.deleteSelected).2.Sound := by
    split
    · exact h
    · exact h.deleteSelected
  cases k with
  | escape =>
    simp only [Session.key]
    split
    · exact h
    · exact h.with_gesture trivial
  | delete => exact hdelete
  | backspace => exact hdelete
  | other => exact h

theorem Sound.select (h : s.Sound) (id : String) : (s.select id).2.Sound := by
  unfold Session.select
  split
  · next hlive => exact h.with_selection (Diagram.isLive_iff.1 hlive)
  · exact h

/-! ## runs -/

theorem Sound.step (h : s.Sound) (a : Action α) : (s.step a).Sound := by
  cases a with
  | press e => exact h.press e
  | move p => exact h.move p
  | release p target => exact h.release p target
  | cancel => exact h.with_gesture trivial
  | key k typing => exact h.key k typing
  | wheel p delta => exact h.with_viewport _
  | zoomIn p => exact h.with_viewport _
  | zoomOut p => exact h.with_viewport _
  | resetView => exact h.with_viewport _
  | drop raw p => exact h.drop raw p
  | dropLayer l p => exact h.dropLayer l p
  | add l p => exact h.add l p
  | rename node new => rw [step_rename]; exact h.rename node new
  | update node name raw =>
    rw [show s.step (.update node name raw) = _ from update_snd s node name raw]
    exact h.edit rfl
  | reportWidth node w =>
    rw [show s.step (.reportWidth node w) = _ from reportWidth_snd s node w]
    exact h.edit rfl
  | reportScreenWidth node w =>
    rw [show s.step (.reportScreenWidth node w) = _ from reportWidth_snd s node _]
    exact h.edit rfl
  | toggle source target =>
    rw [show s.step (.toggle source target) = _ from toggle_snd s source target]
    exact h.edit rfl
  | remove node => exact h.remove node
  | deleteSelected => exact h.deleteSelected
  | select node => exact h.select node
  | clearSelection => exact h.with_no_selection

theorem run_append (s : Session α) (as as' : List (Action α)) :
    s.run (as ++ as') = (s.run as).run as' :=
  List.foldl_append ..

/-- What every action keeps, every run of actions keeps. -/
theorem run_induction {P : Session α → Prop} (hP : ∀ {s} a, P s → P (s.step a)) (h : P s)
    (as : List (Action α)) : P (s.run as) := by
  induction as generalizing s with
  | nil => exact h
  | cons a as ih => exact ih (hP a h)

/-- The sessions that runs of actions lead to, from one opened on a diagram made by edits. -/
def Reached (supply : List String) (s : Session α) : Prop :=
  ∃ (settings : Settings α) (es : List (Edit α)) (s₀ : Session α) (as : List (Action α)),
    open? settings ((Diagram.empty supply).run es) = some s₀ ∧ s₀.run as = s

variable {supply : List String}

theorem Reached.run (h : Reached supply s) (as : List (Action α)) : Reached supply (s.run as) := by
  obtain ⟨settings, es, s₀, as₀, hopen, rfl⟩ := h
  exact ⟨settings, es, s₀, as₀ ++ as, hopen, run_append ..⟩

theorem Reached.step (h : Reached supply s) (a : Action α) : Reached supply (s.step a) :=
  h.run [a]

theorem Reached.sound (h : Reached supply s) : s.Sound := by
  obtain ⟨settings, es, s₀, as, hopen, rfl⟩ := h
  exact run_induction (P := Sound) (fun a h => h.step a)
    (sound_of_open (Diagram.reached_run supply es).sound hopen) as

theorem Reached.diagram (h : Reached supply s) : s.diagram.Reached supply := by
  obtain ⟨settings, es, s₀, as, hopen, rfl⟩ := h
  obtain ⟨v, -, rfl⟩ := Option.map_eq_some_iff.1 hopen
  refine run_induction (P := fun s => s.diagram.Reached supply) (fun {s} a hs => ?_)
    (Diagram.reached_run supply es) as
  rcases step_diagram s a with hd | ⟨e, -, -, hd⟩
  · rw [hd]; exact hs
  · rw [hd]; exact hs.step e

/-- **Sessions stay sound.**  Whatever the settings and the edits that made the diagram, a session
is opened, and whatever is done to it, coordinates that are no numbers and ids that name nothing
included, it stays sound. -/
theorem sound_run_of_open (settings : Settings Float32) (supply : List String)
    (es : List (Edit Float32)) :
    ∃ s, open? settings ((Diagram.empty supply).run es) = some s ∧
      ∀ as : List (Action Float32), (s.run as).Sound := by
  obtain ⟨s, hopen⟩ := exists_open? settings ((Diagram.empty supply).run es)
  refine ⟨s, hopen, fun as => ?_⟩
  have hs : Reached supply s := ⟨settings, es, s, [], hopen, rfl⟩
  exact (hs.run as).sound

/-- A link that is being drawn and has snapped follows when its source is renamed. -/
example :
    (open? (.initial : Settings Float32) ((Diagram.empty ["a", "b"]).run
      [.add .linear ⟨0.0, 0.0⟩, .add .linear ⟨400.0, 0.0⟩])).map (fun s =>
        (s.run [.press ⟨⟨278.0, 50.0⟩, .primary, false, .output "a"⟩, .move ⟨390.0, 55.0⟩,
          .rename "a" " c "]).gesture) =
      some (.wiring "c" (some ⟨⟨278.0, 50.0⟩, ⟨392.0, 50.0⟩, true⟩) (some "b")) := by
  decide +kernel

end Session

end Wireboard
