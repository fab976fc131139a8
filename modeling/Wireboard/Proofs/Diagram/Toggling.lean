import Mathlib.Algebra.Ring.Parity
import Mathlib.Data.List.Dedup
import Wireboard.Proofs.Diagram.Sound

/-!
# Toggling links

What a run of calls that toggle links leaves behind, whichever links they are called on.

* `Diagram.accepts`: the calls that are carried out, which no call changes;
* `Diagram.hasLink_flipped`, `Diagram.filter_links_flipped`: what one of them does to the links;
* `Diagram.Toggled`: what all of them do.  Whether a link is there depends on the parity of the calls
  on it, and where it stands on the last of them;
* `Diagram.run_toggles`: every run of calls on a reached diagram does that.
-/

set_option linter.unusedSectionVars false

namespace Wireboard

namespace Diagram

variable {α : Type} [Scalar α] {d d' : Diagram α} {l : Link}

/-- The call on the link is accepted: its ends are two different nodes. -/
def accepts (d : Diagram α) (l : Link) : Bool :=
  l.source != l.target && (d.isLive l.source && d.isLive l.target)

/-- The calls on the links, one after the other. -/
def toggles (ls : List Link) : List (Edit α) := ls.map fun l => .toggle l.source l.target

/-! ## one call -/

theorem accepts_iff :
    d.accepts l = true ↔ l.source ≠ l.target ∧ l.source ∈ d.ids ∧ l.target ∈ d.ids := by
  simp [accepts, isLive_iff]

theorem accepts_congr (h : d'.ids = d.ids) : d'.accepts = d.accepts := by
  funext l
  rw [Bool.eq_iff_iff, accepts_iff, accepts_iff, h]

theorem accepts_flipped (d : Diagram α) (source target : String) :
    (d.flipped source target).accepts = d.accepts :=
  accepts_congr (ids_flipped d source target)

theorem Sound.accepts (h : d.Sound) (hl : l ∈ d.links) : d.accepts l = true :=
  accepts_iff.2 ⟨h.ends_ne l hl, h.source_live l hl, h.target_live l hl⟩

theorem perform_toggle_of_accepts (h : d.accepts l = true) :
    d.perform (.toggle l.source l.target) =
      .ok (.toggled (if d.hasLink l.source l.target then .removed else .added),
        d.flipped l.source l.target) := by
  obtain ⟨hne, hs, ht⟩ := accepts_iff.1 h
  have hop := toggle_eq_ok_iff.2 ⟨hne, hs, ht, rfl, rfl⟩
  rw [perform, hop]
  rfl

theorem perform_toggle_of_not_accepts (h : d.accepts l = false) :
    ∃ r, d.perform (.toggle l.source l.target) = .error r := by
  cases hop : d.toggle l.source l.target with
  | error r => exact ⟨r, by rw [perform, hop]; rfl⟩
  | ok res =>
    obtain ⟨hne, hs, ht, -, -⟩ := toggle_eq_ok_iff.1 hop
    rw [accepts_iff.2 ⟨hne, hs, ht⟩] at h
    cases h

theorem step_toggle (d : Diagram α) (l : Link) :
    d.step (.toggle l.source l.target) =
      if d.accepts l then d.flipped l.source l.target else d := by
  split
  · next h => exact step_of_ok (perform_toggle_of_accepts h)
  · next h =>
    obtain ⟨r, hr⟩ := perform_toggle_of_not_accepts (Bool.not_eq_true _ ▸ h)
    exact step_of_error hr

theorem links_flipped (d : Diagram α) (l : Link) :
    (d.flipped l.source l.target).links =
      if l ∈ d.links then d.links.erase l else d.links ++ [l] := by
  unfold flipped
  simp only [hasLink_iff]
  split <;> rfl

/-- The links of a kind after a call: those that were there, without the one of the call, and this one
if it was not there. -/
theorem filter_links_flipped (h : d.links.Nodup) (l : Link) (p : Link → Bool) :
    (d.flipped l.source l.target).links.filter p =
      (d.links.filter fun x => p x && x != l) ++ if p l && !d.links.contains l then [l] else [] := by
  rw [links_flipped]
  by_cases hl : l ∈ d.links
  · rw [if_pos hl, h.erase_eq_filter, List.filter_filter]
    simp [hl]
  · have hold : (d.links.filter fun x => p x && x != l) = d.links.filter p := by
      refine List.filter_congr fun x hx => ?_
      have hne : x ≠ l := fun he => hl (he ▸ hx)
      simp [hne]
    rw [if_neg hl, List.filter_append, hold]
    cases hp : p l <;> simp [hl, hp]

theorem hasLink_flipped (h : d.links.Nodup) (l : Link) (a b : String) :
    (d.flipped l.source l.target).hasLink a b =
      if l = ⟨a, b⟩ then !d.hasLink a b else d.hasLink a b := by
  have hmem (x : Link) : x ∈ (d.flipped l.source l.target).links ↔
      if l = x then x ∉ d.links else x ∈ d.links := by
    rw [links_flipped]
    by_cases hl : l ∈ d.links
    · rw [if_pos hl, h.mem_erase_iff]
      by_cases he : l = x
      · subst he
        simp [hl]
      · simp [he, Ne.symm he]
    · rw [if_neg hl, List.mem_append, List.mem_singleton]
      by_cases he : l = x
      · subst he
        simp [hl]
      · simp [he, Ne.symm he]
  rw [Bool.eq_iff_iff, hasLink_iff, hmem]
  split
  · rw [Bool.not_eq_true', ← Bool.not_eq_true, hasLink_iff]
  · rw [hasLink_iff]

/-! ## runs of calls -/

theorem run_toggles_cons (d : Diagram α) (l : Link) (ls : List Link) :
    d.run (toggles (l :: ls)) =
      (if d.accepts l then d.flipped l.source l.target else d).run (toggles ls) := by
  rw [← step_toggle]
  rfl

theorem run_toggles_append (d : Diagram α) (ls ls' : List Link) :
    d.run (toggles (ls ++ ls')) = (d.run (toggles ls)).run (toggles ls') := by
  rw [toggles, List.map_append, run_append]
  rfl

/-- Nodes, and ids still to be drawn, are no matter of links. -/
theorem nodes_run_toggles (d : Diagram α) (ls : List Link) :
    (d.run (toggles ls)).nodes = d.nodes ∧ (d.run (toggles ls)).supply = d.supply := by
  induction ls generalizing d with
  | nil => exact ⟨rfl, rfl⟩
  | cons l ls ih =>
    rw [run_toggles_cons]
    split
    · obtain ⟨hnodes, hsupply⟩ := ih (d.flipped l.source l.target)
      exact ⟨hnodes.trans (nodes_flipped ..), hsupply.trans (supply_flipped ..)⟩
    · exact ih d

theorem accepts_run_toggles (d : Diagram α) (ls : List Link) :
    (d.run (toggles ls)).accepts = d.accepts :=
  accepts_congr (by rw [ids, (nodes_run_toggles d ls).1, ids])

/-- Rejected calls can be left out. -/
theorem run_toggles_filter (d : Diagram α) (ls : List Link) :
    d.run (toggles (ls.filter d.accepts)) = d.run (toggles ls) := by
  induction ls generalizing d with
  | nil => rfl
  | cons l ls ih =>
    rw [run_toggles_cons]
    by_cases h : d.accepts l = true
    · rw [List.filter_cons_of_pos h, run_toggles_cons, if_pos h,
        ← accepts_flipped d l.source l.target]
      exact ih _
    · rw [List.filter_cons_of_neg h, if_neg h]
      exact ih d

/-- **Parity.**  Calls that are all accepted flip whether a link is there, once each. -/
theorem hasLink_run_toggles (hd : d.Sound) {ls : List Link} (h : ∀ l ∈ ls, d.accepts l = true)
    (a b : String) :
    (d.run (toggles ls)).hasLink a b = not^[ls.count ⟨a, b⟩] (d.hasLink a b) := by
  induction ls generalizing d with
  | nil => rfl
  | cons l ls ih =>
    have hl := h l List.mem_cons_self
    obtain ⟨hne, hs, ht⟩ := accepts_iff.1 hl
    have hls : ∀ x ∈ ls, (d.flipped l.source l.target).accepts x = true := by
      rw [accepts_flipped]
      exact fun x hx => h x (List.mem_cons_of_mem _ hx)
    rw [run_toggles_cons, if_pos hl, ih (hd.flipped hne hs ht) hls,
      hasLink_flipped hd.links_nodup, List.count_cons]
    by_cases he : l = ⟨a, b⟩
    · rw [if_pos he, if_pos (by simpa using he), Function.iterate_succ_apply]
    · rw [if_neg he, if_neg (by simpa using he), Nat.add_zero]

/-- **Order.**  Links without a call stay where they are; after them come the others, in the order of
the last calls on them. -/
theorem links_run_toggles (hd : d.Sound) {ls : List Link} (h : ∀ l ∈ ls, d.accepts l = true) :
    (d.run (toggles ls)).links =
      (d.links.filter fun x => !ls.contains x) ++
        ls.dedup.filter fun x => (d.run (toggles ls)).hasLink x.source x.target := by
  induction ls generalizing d with
  | nil =>
    rw [List.dedup_nil, List.filter_nil, List.append_nil, List.filter_eq_self.2 (by simp)]
    rfl
  | cons l ls ih =>
    have hl := h l List.mem_cons_self
    obtain ⟨hne, hs, ht⟩ := accepts_iff.1 hl
    have hsound := hd.flipped hne hs ht
    have hls : ∀ x ∈ ls, (d.flipped l.source l.target).accepts x = true := by
      rw [accepts_flipped]
      exact fun x hx => h x (List.mem_cons_of_mem _ hx)
    have hold : (d.links.filter fun x => !ls.contains x && x != l) =
        d.links.filter fun x => !(l :: ls).contains x := by
      refine List.filter_congr fun x _ => ?_
      rw [List.contains_cons, Bool.not_or, Bool.and_comm]
      rfl
    rw [run_toggles_cons, if_pos hl]
    -- the rest of the run decides whether the link of the first call is moved again
    rw [ih hsound hls, filter_links_flipped hd.links_nodup, hold]
    by_cases hmem : l ∈ ls
    · rw [List.dedup_cons_of_mem hmem]
      simp [hmem]
    · have hlast := hasLink_run_toggles hsound hls l.source l.target
      rw [List.count_eq_zero.2 hmem, Function.iterate_zero, id,
        hasLink_flipped hd.links_nodup, if_pos rfl] at hlast
      rw [List.dedup_cons_of_notMem hmem, List.filter_cons, hlast, List.append_assoc]
      by_cases hlink : l ∈ d.links
      · simp [hasLink, hmem, hlink]
      · simp [hasLink, hmem, hlink]

/-! ## any calls -/

/-- What calls on the links `ls`, one after the other, make of a diagram: each accepted one flips
whether its link is there.  Links without a call come first, as they were; the others are in the order
of the last accepted calls on them. -/
structure Toggled (d : Diagram α) (ls : List Link) (d' : Diagram α) : Prop where
  nodes : d'.nodes = d.nodes
  supply : d'.supply = d.supply
  parity : ∀ a b, d'.hasLink a b = not^[(ls.filter d.accepts).count ⟨a, b⟩] (d.hasLink a b)
  links : d'.links = (d.links.filter fun l => !ls.contains l) ++
    (ls.filter d.accepts).dedup.filter fun l => d'.hasLink l.source l.target

theorem Sound.toggled (h : d.Sound) (ls : List Link) : Toggled d ls (d.run (toggles ls)) := by
  have haccepts : ∀ l ∈ ls.filter d.accepts, d.accepts l = true := fun l hl =>
    (List.mem_filter.1 hl).2
  have hlinks := links_run_toggles h haccepts
  have hparity := hasLink_run_toggles h haccepts
  rw [run_toggles_filter] at hlinks hparity
  refine ⟨(nodes_run_toggles d ls).1, (nodes_run_toggles d ls).2, hparity, ?_⟩
  have hold : (d.links.filter fun l => !(ls.filter d.accepts).contains l) =
      d.links.filter fun l => !ls.contains l := by
    refine List.filter_congr fun l hl => ?_
    have := h.accepts hl
    simp [this]
  rw [← hold]
  exact hlinks

theorem iterate_not_congr {m n : Nat} (h : Even m ↔ Even n) (b : Bool) : not^[m] b = not^[n] b := by
  have hinv : Function.Involutive not := Bool.not_not
  by_cases hm : Even m
  · rw [hinv.iterate_even hm, hinv.iterate_even (h.1 hm)]
  · have hn : ¬ Even n := fun hn => hm (h.2 hn)
    rw [hinv.iterate_odd (Nat.not_even_iff_odd.1 hm), hinv.iterate_odd (Nat.not_even_iff_odd.1 hn)]

theorem Toggled.perm {d₁ d₂ : Diagram α} {ls₁ ls₂ : List Link} (h₁ : Toggled d ls₁ d₁)
    (h₂ : Toggled d ls₂ d₂) (hd₁ : d₁.Sound) (hd₂ : d₂.Sound)
    (h : ∀ l, d.accepts l = true → (Even (ls₁.count l) ↔ Even (ls₂.count l))) :
    d₁.links.Perm d₂.links := by
  rw [List.perm_ext_iff_of_nodup hd₁.links_nodup hd₂.links_nodup]
  intro l
  rw [← hasLink_iff, ← hasLink_iff, h₁.parity, h₂.parity]
  by_cases hl : d.accepts l = true
  · rw [List.count_filter hl, List.count_filter hl, iterate_not_congr (h l hl)]
  · have hnot : ∀ ls : List Link, (ls.filter d.accepts).count l = 0 := fun ls =>
      List.count_eq_zero.2 fun hmem => hl (List.mem_filter.1 hmem).2
    rw [hnot, hnot]

variable {supply : List String}

/-- **Toggling.**  Calls on any links of a reached diagram flip, once for each call whose ends are
two different nodes, whether the link is there, and leave the links in the order of `Toggled`.  A
further call that is accepted answers `removed` if the link is there at that moment and `added` if not;
one that is rejected changes nothing.  Two runs of calls that agree in the parity of the calls on each
link leave the same links. -/
theorem run_toggles (h : Reached supply d) (ls : List Link) :
    let d' := d.run (toggles ls)
    Toggled d ls d' ∧
    (∀ l, d.accepts l = true → d'.perform (.toggle l.source l.target) =
      .ok (.toggled (if d'.hasLink l.source l.target then .removed else .added),
        d.run (toggles (ls ++ [l])))) ∧
    (∀ l, d.accepts l = false → (∃ r, d'.perform (.toggle l.source l.target) = .error r) ∧
      d.run (toggles (ls ++ [l])) = d') ∧
    ∀ ls', (∀ l, d.accepts l = true → (Even (ls.count l) ↔ Even (ls'.count l))) →
      d'.links.Perm (d.run (toggles ls')).links := by
  intro d'
  have hstep : ∀ l, d.run (toggles (ls ++ [l])) = d'.step (.toggle l.source l.target) := fun l =>
    run_toggles_append d ls [l]
  have haccepts : d'.accepts = d.accepts := accepts_run_toggles d ls
  refine ⟨h.sound.toggled ls, fun l hl => ?_, fun l hl => ?_, fun ls' hls => ?_⟩
  · have hop := perform_toggle_of_accepts (haccepts ▸ hl : d'.accepts l = true)
    rw [hstep, step_of_ok hop, hop]
  · obtain ⟨r, hr⟩ := perform_toggle_of_not_accepts (haccepts ▸ hl : d'.accepts l = false)
    exact ⟨⟨r, hr⟩, (hstep l).trans (step_of_error hr)⟩
  · exact (h.sound.toggled ls).perm (h.sound.toggled ls') (h.sound.run _) (h.sound.run _) hls

/-- A link that is toggled twice goes to the end, a loop and a link to nowhere are rejected, and the
other direction is another link. -/
theorem run_toggles_moved :
    let d : Diagram Float32 := (empty ["a", "b", "c"]).run
      [.add .linear ⟨0.0, 0.0⟩, .add .linear ⟨0.0, 0.0⟩, .add .concat ⟨0.0, 0.0⟩,
        .toggle "a" "b", .toggle "b" "c"]
    let ls : List Link := [⟨"a", "b"⟩, ⟨"a", "a"⟩, ⟨"c", "b"⟩, ⟨"a", "x"⟩, ⟨"a", "b"⟩]
    Toggled d ls (d.run (toggles ls)) ∧
      (d.run (toggles ls)).links = [⟨"b", "c"⟩, ⟨"c", "b"⟩, ⟨"a", "b"⟩] ∧
      (d.run (toggles ls)).links.Perm (d.run (toggles [⟨"c", "b"⟩])).links := by
  intro d ls
  have hreached : Reached ["a", "b", "c"] d := reached_run _ _
  obtain ⟨htoggled, -, -, hperm⟩ := run_toggles hreached ls
  have hlinks : (d.run (toggles ls)).links = [⟨"b", "c"⟩, ⟨"c", "b"⟩, ⟨"a", "b"⟩] := by
    decide +kernel
  refine ⟨htoggled, hlinks, hperm [⟨"c", "b"⟩] fun l hl => ?_⟩
  have hne : l ≠ ⟨"a", "a"⟩ ∧ l ≠ ⟨"a", "x"⟩ := by
    constructor <;> rintro rfl <;> revert hl <;> decide +kernel
  by_cases hab : l = ⟨"a", "b"⟩
  · subst hab
    decide
  · simp [ls, List.count_cons, Ne.symm hab, Ne.symm hne.1, Ne.symm hne.2]

end Diagram

end Wireboard
