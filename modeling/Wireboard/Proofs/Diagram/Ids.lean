import Mathlib.Data.List.GetD
import Wireboard.Diagram.Id
import Wireboard.Proofs.Text.Trimming

/-!
# Ids

* `drawFresh_eq_some`, `drawFresh_append`: what is drawn is the first candidate that is not in use;
* `IsProperId`: an id is not empty and has no blanks at its ends.  Trimming makes proper ids or
  nothing (`isProperId_trimmed`), and generated ids are proper (`isProperId_of_mem_generatedIds`).
-/

namespace Wireboard

/-! ## drawing -/

/-- What is drawn is the first candidate that is not in use. -/
theorem drawFresh_eq_some {used cs rest : List String} {c : String}
    (h : drawFresh used cs = some (c, rest)) :
    c ∉ used ∧ ∃ skipped, cs = skipped ++ c :: rest ∧ ∀ x ∈ skipped, x ∈ used := by
  induction cs with
  | nil => simp [drawFresh] at h
  | cons x cs ih =>
    by_cases hx : x ∈ used
    · have h' : drawFresh used cs = some (c, rest) := by simpa [drawFresh, hx] using h
      obtain ⟨hc, skipped, rfl, hs⟩ := ih h'
      refine ⟨hc, x :: skipped, rfl, ?_⟩
      intro y hy
      rcases List.mem_cons.1 hy with rfl | hy
      · exact hx
      · exact hs y hy
    · have h' : x = c ∧ cs = rest := by simpa [drawFresh, hx] using h
      obtain ⟨rfl, rfl⟩ := h'
      exact ⟨hx, [], rfl, by simp⟩

theorem drawFresh_append {used skipped rest : List String} {c : String}
    (hskipped : ∀ x ∈ skipped, x ∈ used) (hc : c ∉ used) :
    drawFresh used (skipped ++ c :: rest) = some (c, rest) := by
  induction skipped with
  | nil => simp [drawFresh, hc]
  | cons x skipped ih =>
    have hx : x ∈ used := hskipped x List.mem_cons_self
    have hrest := ih fun y hy => hskipped y (List.mem_cons_of_mem x hy)
    simpa [drawFresh, hx] using hrest

/-- Something is drawn as long as there is a candidate that is not in use. -/
theorem exists_drawFresh {used cs : List String} (h : ∃ c ∈ cs, c ∉ used) :
    ∃ c rest, drawFresh used cs = some (c, rest) := by
  induction cs with
  | nil => simp at h
  | cons x cs ih =>
    by_cases hx : x ∈ used
    · obtain ⟨c, hc, hunused⟩ := h
      have hcs : c ∈ cs := (List.mem_cons.1 hc).resolve_left fun he => hunused (he ▸ hx)
      simpa [drawFresh, hx] using ih ⟨c, hcs, hunused⟩
    · exact ⟨x, cs, by simp [drawFresh, hx]⟩

theorem drawFresh_eq_none_iff {used cs : List String} :
    drawFresh used cs = none ↔ ∀ c ∈ cs, c ∈ used := by
  constructor
  · intro h c hc
    by_contra hunused
    obtain ⟨c', rest, hdraw⟩ := exists_drawFresh ⟨c, hc, hunused⟩
    rw [h] at hdraw
    cases hdraw
  · intro h
    cases hdraw : drawFresh used cs with
    | none => rfl
    | some drawn =>
      obtain ⟨hunused, skipped, rfl, -⟩ := drawFresh_eq_some hdraw
      exact absurd (h _ (List.mem_append_right _ List.mem_cons_self)) hunused

/-! ## proper ids -/

/-- An id as nodes bear it: not empty, and without blanks at its ends. -/
def IsProperId (id : String) : Prop := id ≠ "" ∧ trimmed id = id

theorem isProperId_trimmed {raw : String} (h : trimmed raw ≠ "") : IsProperId (trimmed raw) :=
  ⟨h, trimmed_trimmed raw⟩

theorem isValidId_iff {new holder : String} {live : List String} :
    isValidId new holder live = true ↔
      trimmed new ≠ "" ∧ (trimmed new ∈ live → trimmed new = holder) := by
  simp only [isValidId, Bool.and_eq_true, bne_iff_ne, Bool.not_eq_true', List.any_eq_false]
  refine and_congr_right fun _ => ⟨fun h hmem => ?_, ?_⟩
  · by_contra hne
    exact h _ hmem ⟨beq_self_eq_true _, hne⟩
  · rintro h id hid ⟨he, hne⟩
    obtain rfl := eq_of_beq he
    exact hne (h hid)

/-! ## generated ids -/

theorem length_idPlaces (k n : Nat) : (idPlaces k n).length = n := by
  induction n generalizing k with
  | zero => rfl
  | succ n ih => rw [idPlaces, List.length_append, ih, List.length_singleton]

theorem mem_idAlphabet_of_mem_idPlaces {k n : Nat} {c : Char} (h : c ∈ idPlaces k n) :
    c ∈ idAlphabet := by
  induction n generalizing k with
  | zero => cases h
  | succ n ih =>
    rcases List.mem_append.1 h with h | h
    · exact ih h
    · have hlt : k % idAlphabet.length < idAlphabet.length := Nat.mod_lt _ (by decide)
      rw [List.mem_singleton.1 h, List.getD_eq_getElem _ _ hlt]
      exact List.getElem_mem hlt

theorem isProperId_generatedId (k : Nat) : IsProperId (generatedId k) := by
  have halphabet : idAlphabet.all (!isBlank ·) = true := by decide
  have hblank : ∀ c ∈ idPlaces k idLength, isBlank c = false := by
    intro c hc
    simpa using List.all_eq_true.1 halphabet c (mem_idAlphabet_of_mem_idPlaces hc)
  constructor
  · intro h
    have hlen := congrArg (fun s => s.toList.length) h
    simp [generatedId, length_idPlaces, idLength] at hlen
  · rw [trimmed, generatedId, String.toList_ofList, Blank.trim_eq_self hblank]

theorem isProperId_of_mem_generatedIds {seed n : Nat} {id : String}
    (h : id ∈ generatedIds seed n) : IsProperId id := by
  obtain ⟨k, -, rfl⟩ := List.mem_map.1 h
  exact isProperId_generatedId _

end Wireboard
