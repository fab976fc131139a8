import Wireboard.Proofs.Disc
import Wireboard.Proofs.Session.Target
import Wireboard.Proofs.Session.Wiring

/-!
# Releasing a link where it is shown

While a link is being drawn, the preview snaps to the nearest input in snapping distance.  When the button
goes up and only the place is known, what lies there is looked up in another way, the outputs first.

* `exists_onPin_of_inputNear`: what is snapped to passes this test, if its radius is not below the
  snapping distance;
* `release_where_shown`: so the link that is shown goes in or out, unless an output is at that place too.
-/

namespace Wireboard

namespace Session

variable {supply : List String} {s : Session Float32} {a b : String} {p : Point Float32}
  {radius : Float32}

/-- What is snapped to is the input of a node that has its input in the disc. -/
theorem exists_onPin_of_inputNear (hradius : s.settings.snapRadius ≤ radius)
    (h : (s.inputNear a p).isSome = true) : ∃ n ∈ s.diagram.nodes, s.OnPin p radius .input n := by
  obtain ⟨t, ht, hlt⟩ := Anchor.nearestWithin_isSome_iff.1 h
  obtain ⟨n, hn, rfl⟩ := List.mem_map.1 ht
  refine ⟨n, (List.mem_filter.1 hn).1, ?_⟩
  exact Single.le_mul_self_of_sqrt_lt (Single.lt_of_lt_of_le hlt hradius)

theorem drawnFrom_of_source (hs : s.Sound) (hg : s.gesture.source? = some a) :
    DrawnFrom a s s ∧ a ∈ s.diagram.ids := by
  have hsound := hs.gesture
  obtain ⟨settings, d, v, g, sel⟩ := s
  cases g with
  | wiring source preview snap =>
    obtain rfl : source = a := Option.some.inj hg
    obtain ⟨hlive, ⟨shown, rfl, -⟩, -⟩ := hsound
    exact ⟨⟨shown, snap, rfl⟩, hlive⟩
  | _ => cases hg

/-- The link ends where the pointer is let go, whatever was shown before. -/
theorem DrawnFrom.releaseAt {w : Session Float32} (h : DrawnFrom a s w) (p : Point Float32)
    (radius height : Float32) : w.releaseAt p radius height = { s with
      gesture := .idle
      diagram := s.finishWiring a p (s.targetAt p radius height) } := by
  obtain ⟨preview, snap, rfl⟩ := h
  rfl

theorem finishWiring_of_output (ha : a ∈ s.diagram.ids) (height : Float32)
    (h : p.isFinite = false ∨ ∃ n ∈ s.diagram.nodes, s.OnPin p radius .output n) :
    s.finishWiring a p (s.targetAt p radius height) = s.diagram := by
  refine finishWiring_of_not_near ha fun id hid hp => ?_
  rcases h with hp' | houtput
  · rw [hp] at hp'
    cases hp'
  · obtain ⟨id', hid'⟩ := exists_targetAt_output height houtput
    rw [hid] at hid'
    cases hid'

/-- **What is shown is what a release does**, where no output is in the way.  Anywhere else the release
ends the gesture and nothing more. -/
theorem release_where_shown (hs : Reached supply s) (hg : s.gesture.source? = some a)
    (p : Point Float32) (hradius : s.settings.snapRadius ≤ radius) (height : Float32)
    (hb : (s.move p).gesture.snap? = some b) :
    (p.isFinite = true → (∀ n ∈ s.diagram.nodes, ¬ s.OnPin p radius .output n) →
      ∃ t d, s.diagram.toggle a b = .ok (t, d) ∧
        (s.move p).releaseAt p radius height = { s with gesture := .idle, diagram := d }) ∧
      ((p.isFinite = false ∨ ∃ n ∈ s.diagram.nodes, s.OnPin p radius .output n) →
        (s.move p).releaseAt p radius height = { s with gesture := .idle }) := by
  obtain ⟨hdrawn, ha⟩ := drawnFrom_of_source hs.sound hg
  have hmove : DrawnFrom a s (s.move p) := hdrawn.run_moves ha [p]
  constructor
  · intro hp houtput
    obtain ⟨n, hn⟩ := Diagram.exists_node? (Diagram.isLive_iff.2 ha)
    rw [hdrawn.move_of_isFinite hn hp] at hb
    obtain ⟨⟨t, dist⟩, hnear, rfl⟩ := Option.map_eq_some_iff.1 hb
    obtain ⟨id, hid⟩ := exists_targetAt_input height houtput
      (exists_onPin_of_inputNear hradius (by rw [hnear]; rfl))
    obtain ⟨r, hr⟩ := finishWiring_of_near ha hp hnear id
    refine ⟨r, _, hr, ?_⟩
    rw [hmove.releaseAt, hid]
  · intro h
    rw [hmove.releaseAt, finishWiring_of_output ha height h]

/-- A link that is shown, and made by the release. -/
theorem release_where_shown_linked :
    ∃ (s : Session Float32) (t : Toggle) (d : Diagram Float32), Reached ["a", "b"] s ∧
      s.diagram.toggle "a" "b" = .ok (t, d) ∧
      (s.move ⟨390.0, 55.0⟩).releaseAt ⟨390.0, 55.0⟩ 30.0 100.0 =
        { s with gesture := .idle, diagram := d } := by
  let es : List (Edit Float32) := [.add .linear ⟨0.0, 0.0⟩, .add .linear ⟨400.0, 0.0⟩]
  let as : List (Action Float32) := [.press ⟨⟨278.0, 50.0⟩, .primary, false, .output "a"⟩]
  have hstate : (open? .initial ((Diagram.empty ["a", "b"]).run es)).map (fun s =>
      ((s.run as).gesture.source?, decide ((s.run as).settings.snapRadius ≤ 30.0),
        ((s.run as).move ⟨390.0, 55.0⟩).gesture.snap?,
        decide (∀ n ∈ (s.run as).diagram.nodes, ¬ (s.run as).OnPin ⟨390.0, 55.0⟩ 30.0 .output n))) =
      some (some "a", true, some "b", true) := by
    decide +kernel
  obtain ⟨s, hopen, hstate⟩ := Option.map_eq_some_iff.1 hstate
  simp only [Prod.mk.injEq, decide_eq_true_eq] at hstate
  obtain ⟨hsource, hradius, hsnap, houtput⟩ := hstate
  have hs : Reached ["a", "b"] (s.run as) := ⟨.initial, es, s, as, hopen, rfl⟩
  obtain ⟨t, d, htoggle, hrelease⟩ :=
    (release_where_shown hs hsource ⟨390.0, 55.0⟩ hradius 100.0 hsnap).1 (by decide +kernel) houtput
  exact ⟨s.run as, t, d, hs, htoggle, hrelease⟩

/-- An output in the way: the link to the second node is shown, and the release does not make it. -/
theorem not_release_where_shown :
    ∃ s : Session Float32, Reached ["a", "b"] s ∧ s.gesture.source? = some "a" ∧
      0.0 < s.settings.snapRadius ∧ s.settings.snapRadius ≤ 30.0 ∧
      (s.move ⟨282.0, 50.0⟩).gesture.snap? = some "b" ∧ s.diagram.hasLink "a" "b" = false ∧
      ((s.move ⟨282.0, 50.0⟩).releaseAt ⟨282.0, 50.0⟩ 30.0 100.0).diagram.hasLink "a" "b" =
        false := by
  let es : List (Edit Float32) := [.add .linear ⟨0.0, 0.0⟩, .add .linear ⟨290.0, 0.0⟩]
  let as : List (Action Float32) := [.press ⟨⟨278.0, 50.0⟩, .primary, false, .output "a"⟩]
  have hstate : (open? .initial ((Diagram.empty ["a", "b"]).run es)).map (fun s =>
      ((s.run as).gesture.source?, decide (0.0 < (s.run as).settings.snapRadius),
        decide ((s.run as).settings.snapRadius ≤ 30.0),
        ((s.run as).move ⟨282.0, 50.0⟩).gesture.snap?, (s.run as).diagram.hasLink "a" "b",
        (((s.run as).move ⟨282.0, 50.0⟩).releaseAt ⟨282.0, 50.0⟩ 30.0 100.0).diagram.hasLink
          "a" "b")) =
      some (some "a", true, true, some "b", false, false) := by
    decide +kernel
  obtain ⟨s, hopen, hstate⟩ := Option.map_eq_some_iff.1 hstate
  simp only [Prod.mk.injEq, decide_eq_true_eq] at hstate
  exact ⟨s.run as, ⟨.initial, es, s, as, hopen, rfl⟩, hstate⟩

end Session

end Wireboard
