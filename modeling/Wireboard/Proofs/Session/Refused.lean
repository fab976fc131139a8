import Wireboard.Proofs.Diagram.InPlace
import Wireboard.Proofs.Session.Sound

/-!
# Refused actions

An action that is refused leaves the session as it was, although some of them write before they know.

* `Reply.isRefusal`: the answers that say no;
* `Session.step_of_isRefusal`: what is answered so has changed nothing.  Deleting the selected node
  drops the selection first, which is of no consequence because a selected node is live;
* `Session.refusal_changes_nothing`: this, for all sessions that runs lead to, together with the edits
  of diagrams, and with abandoning a gesture, which changes nothing else.
-/

set_option linter.unusedSectionVars false

namespace Wireboard

/-- The answer says that the action was not carried out. -/
def Reply.isRefusal : Reply → Bool
  | .nothing => false
  | .flag done => !done
  | .made id => id.isNone
  | .toggled t => t.isNone

namespace Session

variable {α : Type} [Scalar α] {s : Session α}

/-! ## one action each -/

theorem add_refused {l : Layer} {p : Point α} (h : (s.add l p).1 = none) : (s.add l p).2 = s := by
  unfold add at h ⊢
  split at h
  · cases h
  · rfl

theorem dropLayer_refused {l : Layer} {p : Point α} (h : (s.dropLayer l p).1 = none) :
    (s.dropLayer l p).2 = s := by
  unfold dropLayer at h ⊢
  split
  · next hl =>
    rw [if_pos hl] at h
    exact add_refused h
  · rfl

theorem drop_refused {raw : String} {p : Point α} (h : (s.drop raw p).1 = none) :
    (s.drop raw p).2 = s := by
  unfold drop at h ⊢
  split at h
  · exact dropLayer_refused h
  · rfl

theorem rename_refused {id new : String} (h : (s.rename id new).1 = false) :
    (s.rename id new).2 = s :=
  rename_eq_false (Prod.ext h rfl)

theorem update_refused {id name raw : String} (h : (s.update id name raw).1 = false) :
    (s.update id name raw).2 = s := by
  unfold update at h ⊢
  split at h
  · cases h
  · rfl

theorem reportWidth_refused {id : String} {w : α} (h : (s.reportWidth id w).1 = false) :
    (s.reportWidth id w).2 = s := by
  unfold reportWidth at h ⊢
  split at h
  · cases h
  · rfl

theorem toggle_refused {source target : String} (h : (s.toggle source target).1 = none) :
    (s.toggle source target).2 = s := by
  unfold toggle at h ⊢
  split at h
  · cases h
  · rfl

theorem remove_refused {id : String} (h : (s.remove id).1 = false) : (s.remove id).2 = s := by
  by_cases hlive : id ∈ s.diagram.ids
  · rw [remove_of_live hlive] at h
    cases h
  · rw [remove_of_not_live hlive]

/-- The selection is dropped before the node is removed, but a node that is selected can be removed. -/
theorem deleteSelected_refused (hs : s.Sound) (h : s.deleteSelected.1 = false) :
    s.deleteSelected.2 = s := by
  cases hsel : s.selection.id with
  | none => rw [deleteSelected_of_none hsel]
  | some id =>
    rw [deleteSelected_of_live hsel (hs.selection id hsel)] at h
    cases h

theorem select_refused {id : String} (h : (s.select id).1 = false) : (s.select id).2 = s := by
  unfold select at h ⊢
  split at h
  · cases h
  · next hlive => rw [if_neg hlive]

theorem key_refused (hs : s.Sound) {k : Key} {typing : Bool} (h : (s.key k typing).1 = false) :
    (s.key k typing).2 = s := by
  have hdelete : (if typing then (false, s) else s.deleteSelected).1 = false →
      (if typing then (false, s) else s.deleteSelected).2 = s := by
    intro h
    cases typing with
    | true => rfl
    | false => exact deleteSelected_refused hs h
  cases k with
  | escape =>
    unfold key at h ⊢
    dsimp only at h ⊢
    split
    · rfl
    · next hbusy =>
      rw [if_neg hbusy] at h
      cases h
  | delete => exact hdelete h
  | backspace => exact hdelete h
  | other => rfl

/-! ## every action -/

theorem step_of_isRefusal (hs : s.Sound) {a : Action α} (h : (s.perform a).1.isRefusal = true) :
    s.step a = s := by
  have hflag : ∀ {b : Bool}, (Reply.flag b).isRefusal = true → b = false := by
    intro b hb
    simpa [Reply.isRefusal] using hb
  have hmade : ∀ {o : Option String}, (Reply.made o).isRefusal = true → o = none := by
    intro o ho
    simpa [Reply.isRefusal] using ho
  cases a with
  | press e => cases h
  | move p => cases h
  | release p target => cases h
  | cancel => cases h
  | key k typing => exact key_refused hs (hflag h)
  | wheel p delta => cases h
  | zoomIn p => cases h
  | zoomOut p => cases h
  | resetView => cases h
  | drop raw p => exact drop_refused (hmade h)
  | dropLayer l p => exact dropLayer_refused (hmade h)
  | add l p => exact add_refused (hmade h)
  | rename node new => rw [step_rename]; exact rename_refused (hflag h)
  | update node name raw => exact update_refused (hflag h)
  | reportWidth node w => exact reportWidth_refused (hflag h)
  | reportScreenWidth node w => exact reportWidth_refused (hflag h)
  | toggle source target => exact toggle_refused (Option.isNone_iff_eq_none.1 h)
  | remove node => exact remove_refused (hflag h)
  | deleteSelected => exact deleteSelected_refused hs (hflag h)
  | select node => exact select_refused (hflag h)
  | clearSelection => cases h

theorem step_escape (s : Session α) (typing : Bool) :
    s.step (.key .escape typing) = { s with gesture := .idle } := by
  change (s.key .escape typing).2 = _
  unfold key
  dsimp only
  split
  · next hidle =>
    have hg : s.gesture = .idle := by
      cases hg : s.gesture with
      | idle => rfl
      | _ => rw [hg] at hidle; cases hidle
    rw [← hg]
  · rfl

/-- **What is refused changes nothing.**  An action that is refused leaves the whole session as it
was, in every session that a run leads to.  So do edits in place: on every diagram that edits make,
an edit that is refused has not written anything, and one that is not has made what `perform` makes.
Abandoning a gesture, by the escape key or otherwise, changes nothing but the gesture. -/
theorem refusal_changes_nothing {supply : List String} (hs : Reached supply s) :
    (∀ a, (s.perform a).1.isRefusal = true → s.step a = s) ∧
    s.step .cancel = { s with gesture := .idle } ∧
    (∀ typing, s.step (.key .escape typing) = { s with gesture := .idle }) ∧
    ∀ (d : Diagram α), d.Reached supply → ∀ e : Edit α,
      e.inPlace.run d = d.settle (d.perform e) ∧
        ∀ r d', e.inPlace.run d = .error r d' → d.perform e = .error r ∧ d' = d := by
  refine ⟨fun a => step_of_isRefusal hs.sound, rfl, step_escape s, ?_⟩
  intro d hd e
  have hrun := e.inPlace_run hd.sound.ids_nodup
  refine ⟨hrun, ?_⟩
  intro r d' hrefused
  rw [hrun] at hrefused
  cases hd : d.perform e with
  | ok result =>
    rw [hd] at hrefused
    cases hrefused
  | error r' =>
    rw [hd] at hrefused
    cases hrefused
    exact ⟨rfl, rfl⟩

/-- While a node is being moved and selected nodes are none, the delete key is refused, and so is a
rename to blanks, in place or not. -/
theorem refusal_changes_nothing_blank :
    ∃ s : Session Float32, Reached ["a"] s ∧ s.gesture ≠ .idle ∧
      s.step (.key .delete false) = s ∧ s.step (.rename "a" " ") = s ∧
      (Edit.rename "a" " ").inPlace.run s.diagram = .error .emptyId s.diagram := by
  let es : List (Edit Float32) := [.add .linear ⟨0.0, 0.0⟩]
  let as : List (Action Float32) := [.press ⟨⟨10.0, 10.0⟩, .primary, false, .body "a"⟩]
  obtain ⟨s₀, hopen⟩ := exists_open? .initial ((Diagram.empty ["a"]).run es)
  have hstate : (open? .initial ((Diagram.empty ["a"]).run es)).map
      (fun s₀ => ((s₀.run as).gesture.isIdle, (((s₀.run as).perform (.key .delete false)).1.isRefusal,
        ((s₀.run as).perform (.rename "a" " ")).1.isRefusal))) = some (false, true, true) := by
    decide +kernel
  rw [hopen, Option.map_some, Option.some.injEq] at hstate
  obtain ⟨hbusy, hrest⟩ := Prod.mk.inj hstate
  obtain ⟨hkey, hrename⟩ := Prod.mk.inj hrest
  have hs : Reached ["a"] (s₀.run as) := ⟨.initial, es, s₀, as, hopen, rfl⟩
  obtain ⟨hrefused, -, -, hedit⟩ := refusal_changes_nothing hs
  have hblank : ∀ d : Diagram Float32, d.perform (.rename "a" " ") = .error .emptyId := by
    intro d
    have hname : trimmed " " = "" := by decide +kernel
    simp only [Diagram.perform, Diagram.rename, hname, if_pos]
    rfl
  refine ⟨s₀.run as, hs, ?_, hrefused _ hkey, hrefused _ hrename, ?_⟩
  · intro hidle
    rw [hidle] at hbusy
    cases hbusy
  · rw [(hedit _ hs.diagram (.rename "a" " ")).1, hblank]
    rfl

end Session

end Wireboard
