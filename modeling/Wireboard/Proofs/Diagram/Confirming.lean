import Wireboard.Proofs.Param.Coercion

/-!
# Confirming what an editor shows

An inline editor that is opened on a parameter and confirmed as it is stores what it shows.

* `Diagram.origin_step`: unless values are set directly, the parameters of a node are the default ones
  of its layer, with values over them that were made of typed texts;
* `Diagram.update_of_settled`: storing a value that is there already changes nothing;
* `Diagram.update_display`: so confirming changes nothing, with one exception: the empty sequence that
  concatenations begin with is not under a name for sequences, and it is confirmed as an empty text.
-/

set_option linter.unusedSectionVars false

namespace Wireboard

/-! ## where parameters come from -/

variable {α : Type} [Scalar α]

/-- The values of a layer as they are when all were typed, except for those that are there from the
beginning. -/
inductive Origin (l : Layer) : Params → Prop where
  | defaults : Origin l l.defaults
  | typed {ps : Params} (h : Origin l ps) (name raw : String) (current : Option Param) :
      Origin l (ps.insert name (.coerce name raw current))

/-- A default value is stored again when its text is confirmed, if it is not the empty sequence of a
concatenation. -/
theorem Layer.settled_defaults (l : Layer) : ∀ e ∈ l.defaults.entries,
    e.2.Settled e.1 ∨ l = .concat ∧ e = ("layers", .sequence []) := by
  cases l <;> decide +kernel

theorem Origin.settled {l : Layer} {ps : Params} (h : Origin l ps) : ∀ e ∈ ps.entries,
    e.2.Settled e.1 ∨ l = .concat ∧ e = ("layers", .sequence []) := by
  induction h with
  | defaults => exact l.settled_defaults
  | typed h name raw current ih =>
    intro e he
    rcases Params.mem_insertEntry he with rfl | he
    · exact .inl (Param.settled_coerce name raw current)
    · exact ih e he

namespace Diagram

variable {d : Diagram α}

theorem origin_step (h : ∀ n ∈ d.nodes, Origin n.layer n.params) {e : Edit α}
    (he : e.setsParam = false) : ∀ n ∈ (d.step e).nodes, Origin n.layer n.params := by
  intro n hn
  cases yields_of_mem_step he hn with
  | kept n old => exact h n old
  | added l p id drawn finite => exact .defaults
  | renamed n old name proper => exact h n old
  | placed n old p finite => exact h n old
  | measured n old w width => exact h n old
  | typed n old name raw current => exact (h n old).typed name raw current

theorem origin_run (h : ∀ n ∈ d.nodes, Origin n.layer n.params) {es : List (Edit α)}
    (hes : ∀ e ∈ es, e.setsParam = false) : ∀ n ∈ (d.run es).nodes, Origin n.layer n.params := by
  induction es generalizing d with
  | nil => exact h
  | cons e es ih =>
    exact ih (origin_step h (hes e List.mem_cons_self)) fun e' he' =>
      hes e' (List.mem_cons_of_mem _ he')

/-! ## confirming -/

theorem update_of_settled (hd : d.ids.Nodup) {id name : String} {n : Node α} {v : Param}
    (hn : d.node? id = some n) (hv : n.params.get? name = some v) (h : v.Settled name) :
    d.update id name v.display = .ok (v, d) := by
  have hstored : .coerce name v.display (n.params.get? name) = v := by rw [hv]; exact h
  have hsame : d.modify id (fun n => { n with params := n.params.insert name v }) = d := by
    refine modify_eq_self fun m hm hid => ?_
    have hmn : m = n := by
      have := node?_of_mem hd hm
      rw [hid, hn] at this
      exact (Option.some.inj this).symm
    rw [hmn, Params.insert_of_get? hv]
  unfold update
  rw [hn]
  dsimp only
  rw [hstored, hsame]

/-- **Confirming without typing.**  The nodes of a diagram were added to it and changed in any way but by
setting a value directly.  The text of a stored value is then stored as that value, and the diagram
stays as it is, unless the value is the empty sequence that a concatenation begins with: this one is
shown as an empty text, and that is what is stored instead. -/
theorem update_display (supply : List String) {es : List (Edit α)}
    (hes : ∀ e ∈ es, e.setsParam = false) {id name : String} {n : Node α} {v : Param}
    (hn : ((empty supply).run es).node? id = some n) (hv : n.params.get? name = some v) :
    let d := (empty supply).run es
    (¬ (name = "layers" ∧ v = .sequence []) → d.update id name v.display = .ok (v, d)) ∧
    (name = "layers" → v = .sequence [] → n.layer = .concat ∧
      d.update id name v.display = .ok (.text "",
        d.modify id fun n => { n with params := n.params.insert name (.text "") })) := by
  intro d
  have hsound : d.Sound := (reached_run supply es).sound
  have horigin : ∀ n ∈ d.nodes, Origin n.layer n.params :=
    origin_run (fun n hn => by cases hn) hes
  have hmem := List.mem_of_find?_eq_some (Params.mem_entries_of_get? hv)
  have hsettled := (horigin n (node?_eq_some hn).1).settled (name, v) hmem
  refine ⟨fun hother => ?_, ?_⟩
  · refine update_of_settled hsound.ids_nodup hn hv (hsettled.resolve_right ?_)
    rintro ⟨-, hdefault⟩
    exact hother (Prod.mk.inj hdefault)
  · rintro rfl rfl
    have hunsettled : ¬ Param.Settled "layers" (.sequence []) := by decide +kernel
    refine ⟨(hsettled.resolve_left hunsettled).1, ?_⟩
    have hstored : Param.coerce "layers" (Param.display (.sequence [])) (n.params.get? "layers") =
        .text "" := by rw [hv]; decide +kernel
    unfold update
    rw [hn]
    dsimp only
    rw [hstored]

/-- Numbers are typed with blanks and zeros that the editor does not show again. -/
theorem update_display_typed :
    let d : Diagram Float32 := (empty ["a"]).run
      [.addNamed " linear " ⟨0.0, 0.0⟩, .update "a" "kernelShape" " 0.10,,20.0", .rename "a" "b"]
    d.update "b" "kernelShape" "0.1, 20" = .ok (.sequence [0.1, 20.0], d) := by
  intro d
  have hparam : ((d.node? "b").bind (·.params.get? "kernelShape")) = some (.sequence [0.1, 20.0]) := by
    decide +kernel
  obtain ⟨n, hn, hv⟩ := Option.bind_eq_some_iff.1 hparam
  have hes : ∀ e ∈ ([.addNamed " linear " ⟨0.0, 0.0⟩, .update "a" "kernelShape" " 0.10,,20.0",
      .rename "a" "b"] : List (Edit Float32)), e.setsParam = false := by simp [Edit.setsParam]
  have htext : Param.display (.sequence [0.1, 20.0]) = "0.1, 20" := by decide +kernel
  rw [← htext]
  exact (update_display ["a"] hes hn hv).1 (by decide)

/-- What a concatenation begins with is lost when it is confirmed. -/
theorem not_update_display_concat :
    let d : Diagram Float32 := (empty ["a"]).run [.add .concat ⟨0.0, 0.0⟩]
    ((d.node? "a").bind (·.params.get? "layers")) = some (.sequence []) ∧
      ((d.step (.update "a" "layers" (Param.display (.sequence [])))).node? "a").bind
        (·.params.get? "layers") = some (.text "") := by
  decide +kernel

end Diagram

end Wireboard
