import Wireboard.Proofs.Session.Clicking

/-!
# What lies under the pointer

The search for what lies at a place of the screen goes through the nodes three times: from the first to
the last for their outputs, in the same order for their inputs, and from the last, which is drawn on top,
to the first for their bodies.

* `Hits s p radius height t`: what this comes to, as four rules;
* `targetAt_eq_iff`: the search finds the one target that the rules allow;
* `Hits.exists_node`: what is found is a node of the diagram, so that a press there has a node to take or
  to draw a link from (`target_found`).
-/

set_option linter.unusedSectionVars false

namespace Wireboard

/-! ## first and last elements -/

section order

variable {β : Type} {P : β → Prop} {l : List β} {b : β}

/-- The first element of the list that `P` holds of. -/
def IsFirst (P : β → Prop) (l : List β) (b : β) : Prop :=
  ∃ before after, l = before ++ b :: after ∧ P b ∧ ∀ c ∈ before, ¬ P c

/-- The last element of the list that `P` holds of. -/
def IsLast (P : β → Prop) (l : List β) (b : β) : Prop :=
  ∃ before after, l = before ++ b :: after ∧ P b ∧ ∀ c ∈ after, ¬ P c

theorem IsFirst.mem (h : IsFirst P l b) : b ∈ l ∧ P b := by
  obtain ⟨before, after, rfl, hb, -⟩ := h
  exact ⟨List.mem_append_right _ List.mem_cons_self, hb⟩

theorem IsLast.mem (h : IsLast P l b) : b ∈ l ∧ P b := by
  obtain ⟨before, after, rfl, hb, -⟩ := h
  exact ⟨List.mem_append_right _ List.mem_cons_self, hb⟩

variable [DecidablePred P]

theorem find?_eq_some_iff_isFirst : l.find? (fun c => decide (P c)) = some b ↔ IsFirst P l b := by
  rw [List.find?_eq_some_iff_append]
  simp only [decide_eq_true_eq, Bool.not_eq_true', decide_eq_false_iff_not]
  constructor
  · rintro ⟨hb, before, after, hl, hbefore⟩
    exact ⟨before, after, hl, hb, hbefore⟩
  · rintro ⟨before, after, hl, hb, hbefore⟩
    exact ⟨hb, before, after, hl, hbefore⟩

theorem find?_reverse_eq_some_iff_isLast :
    l.reverse.find? (fun c => decide (P c)) = some b ↔ IsLast P l b := by
  rw [find?_eq_some_iff_isFirst]
  constructor
  · rintro ⟨before, after, hl, hb, hbefore⟩
    refine ⟨after.reverse, before.reverse, ?_, hb, fun c hc => hbefore c (List.mem_reverse.1 hc)⟩
    rw [← List.reverse_reverse l, hl]
    simp
  · rintro ⟨before, after, rfl, hb, hafter⟩
    refine ⟨after.reverse, before.reverse, ?_, hb, fun c hc => hafter c (List.mem_reverse.1 hc)⟩
    simp

theorem find?_eq_none_iff_forall : l.find? (fun c => decide (P c)) = none ↔ ∀ c ∈ l, ¬ P c := by
  rw [List.find?_eq_none]
  simp only [decide_eq_true_eq]

end order

/-- The node that is found. -/
def Target.node? : Target → Option String
  | .canvas => none
  | .body id | .control id | .input id | .output id => some id

namespace Session

variable {α : Type} [Scalar α] {supply : List String} {s : Session α} {p : Point α}
  {radius height : α} {n : Node α} {id : String} {t : Target}

/-! ## pins and bodies -/

/-- The pin of the node is in the disc around `p`. -/
def OnPin (s : Session α) (p : Point α) (radius : α) (pin : Pin) (n : Node α) : Prop :=
  p.distSq (s.viewport.toScreen (s.settings.pinPlace n pin)) ≤ radius * radius

/-- The node is at `p`, its edges included. -/
def OnBody (s : Session α) (p : Point α) (height : α) (n : Node α) : Prop :=
  (n.position.x ≤ (s.viewport.toGraph p).x ∧
    (s.viewport.toGraph p).x ≤ n.position.x + s.settings.widthOf n) ∧
  n.position.y ≤ (s.viewport.toGraph p).y ∧ (s.viewport.toGraph p).y ≤ n.position.y + height

instance (pin : Pin) : DecidablePred (s.OnPin p radius pin) := fun _ =>
  inferInstanceAs (Decidable (_ ≤ _))

instance : DecidablePred (s.OnBody p height) := fun _ =>
  inferInstanceAs (Decidable ((_ ∧ _) ∧ _ ∧ _))

/-- What is found at `p`. -/
inductive Hits (s : Session α) (p : Point α) (radius height : α) : Target → Prop where
  | output {n : Node α} (hn : IsFirst (s.OnPin p radius .output) s.diagram.nodes n) :
    Hits s p radius height (.output n.id)
  | input {n : Node α} (houtput : ∀ m ∈ s.diagram.nodes, ¬ s.OnPin p radius .output m)
    (hn : IsFirst (s.OnPin p radius .input) s.diagram.nodes n) :
    Hits s p radius height (.input n.id)
  | body {n : Node α} (hpin : ∀ m ∈ s.diagram.nodes, ∀ pin, ¬ s.OnPin p radius pin m)
    (hn : IsLast (s.OnBody p height) s.diagram.nodes n) : Hits s p radius height (.body n.id)
  | canvas (hpin : ∀ m ∈ s.diagram.nodes, ∀ pin, ¬ s.OnPin p radius pin m)
    (hbody : ∀ m ∈ s.diagram.nodes, ¬ s.OnBody p height m) : Hits s p radius height .canvas

/-- The first node with its pin in the disc. -/
def pinned? (s : Session α) (p : Point α) (radius : α) (pin : Pin) : Option (Node α) :=
  s.diagram.nodes.find? fun n => decide (s.OnPin p radius pin n)

theorem firstWithin_anchors (pin : Pin) :
    Anchor.firstWithin p radius (s.settings.anchors s.viewport pin s.diagram.nodes) =
      (s.pinned? p radius pin).map fun n =>
        ⟨n.id, pin, s.viewport.toScreen (s.settings.pinPlace n pin)⟩ := by
  rw [Anchor.firstWithin, Settings.anchors, List.find?_map]
  rfl

theorem pinAt_eq (s : Session α) (p : Point α) (radius : α) :
    s.pinAt p radius =
      ((s.pinned? p radius .output).map fun n =>
        ⟨n.id, .output, s.viewport.toScreen (s.settings.pinPlace n .output)⟩).or
      ((s.pinned? p radius .input).map fun n =>
        ⟨n.id, .input, s.viewport.toScreen (s.settings.pinPlace n .input)⟩) := by
  rw [pinAt, Anchor.firstWithin, List.find?_append]
  exact congrArg₂ Option.or (firstWithin_anchors .output) (firstWithin_anchors .input)

theorem bodyAt_eq (s : Session α) (p : Point α) (height : α) :
    s.bodyAt p height = s.diagram.nodes.reverse.find? fun n => decide (s.OnBody p height n) := by
  refine congrArg (List.find? · _) (funext fun n => ?_)
  rw [Bool.eq_iff_iff]
  simp only [Settings.covers, OnBody, Bool.and_eq_true, decide_eq_true_eq, and_assoc]

/-- What is found is what the rules say. -/
theorem hits_targetAt (s : Session α) (p : Point α) (radius height : α) :
    s.Hits p radius height (s.targetAt p radius height) := by
  unfold targetAt
  rw [pinAt_eq]
  cases houtput : s.pinned? p radius .output with
  | some n => exact .output (find?_eq_some_iff_isFirst.1 houtput)
  | none =>
    have houtput := find?_eq_none_iff_forall.1 houtput
    cases hinput : s.pinned? p radius .input with
    | some n => exact .input houtput (find?_eq_some_iff_isFirst.1 hinput)
    | none =>
      have hpin : ∀ m ∈ s.diagram.nodes, ∀ pin, ¬ s.OnPin p radius pin m := by
        intro m hm pin
        cases pin with
        | input => exact find?_eq_none_iff_forall.1 hinput m hm
        | output => exact houtput m hm
      cases hbody : s.bodyAt p height with
      | some n =>
        rw [bodyAt_eq] at hbody
        exact .body hpin (find?_reverse_eq_some_iff_isLast.1 hbody)
      | none =>
        rw [bodyAt_eq, find?_eq_none_iff_forall] at hbody
        exact .canvas hpin fun m hm => hbody m (List.mem_reverse.2 hm)

/-- Conversely the rules allow nothing else. -/
theorem Hits.targetAt_eq (h : s.Hits p radius height t) : s.targetAt p radius height = t := by
  have hnone : (∀ m ∈ s.diagram.nodes, ∀ pin, ¬ s.OnPin p radius pin m) → s.pinAt p radius = none := by
    intro hpin
    have hpinned : ∀ pin, s.pinned? p radius pin = none := fun pin =>
      find?_eq_none_iff_forall.2 fun m hm => hpin m hm pin
    rw [pinAt_eq, hpinned, hpinned]
    rfl
  unfold Session.targetAt
  cases h with
  | output hn =>
    have hsome : s.pinned? p radius .output = some _ := find?_eq_some_iff_isFirst.2 hn
    rw [pinAt_eq, hsome]
    rfl
  | input houtput hn =>
    have hsome : s.pinned? p radius .input = some _ := find?_eq_some_iff_isFirst.2 hn
    have hnone : s.pinned? p radius .output = none := find?_eq_none_iff_forall.2 houtput
    rw [pinAt_eq, hsome, hnone]
    rfl
  | body hpin hn =>
    rw [hnone hpin, bodyAt_eq, find?_reverse_eq_some_iff_isLast.2 hn]
  | canvas hpin hbody =>
    have hbody : s.bodyAt p height = none := by
      rw [bodyAt_eq, find?_eq_none_iff_forall]
      exact fun m hm => hbody m (List.mem_reverse.1 hm)
    rw [hnone hpin, hbody]

theorem targetAt_eq_iff : s.targetAt p radius height = t ↔ s.Hits p radius height t :=
  ⟨fun h => h ▸ hits_targetAt s p radius height, Hits.targetAt_eq⟩

/-- What is found is a node of the diagram, by the id that names it. -/
theorem Hits.exists_node (hs : s.Sound) (h : s.Hits p radius height t) (ht : t.node? = some id) :
    ∃ n, s.diagram.node? id = some n ∧
      (t = .output id → s.OnPin p radius .output n) ∧ (t = .body id → s.OnBody p height n) := by
  have hnode : ∀ {n}, n ∈ s.diagram.nodes → s.diagram.node? n.id = some n :=
    Diagram.node?_of_mem hs.diagram.ids_nodup
  cases h with
  | output hn =>
    obtain rfl := Option.some.inj ht
    exact ⟨_, hnode hn.mem.1, fun _ => hn.mem.2, nofun⟩
  | input houtput hn =>
    obtain rfl := Option.some.inj ht
    exact ⟨_, hnode hn.mem.1, nofun, nofun⟩
  | body hpin hn =>
    obtain rfl := Option.some.inj ht
    exact ⟨_, hnode hn.mem.1, nofun, fun _ => hn.mem.2⟩
  | canvas hpin hbody => cases ht

theorem targetAt_eq_canvas_iff : s.targetAt p radius height = .canvas ↔
    ∀ n ∈ s.diagram.nodes, (∀ pin, ¬ s.OnPin p radius pin n) ∧ ¬ s.OnBody p height n := by
  rw [targetAt_eq_iff]
  constructor
  · intro h
    cases h with
    | canvas hpin hbody => exact fun n hn => ⟨hpin n hn, hbody n hn⟩
  · exact fun h => .canvas (fun n hn => (h n hn).1) fun n hn => (h n hn).2

theorem exists_targetAt_output (height : α) (h : ∃ n ∈ s.diagram.nodes, s.OnPin p radius .output n) :
    ∃ id, s.targetAt p radius height = .output id := by
  obtain ⟨m, hm, hon⟩ := h
  have hits := hits_targetAt s p radius height
  generalize s.targetAt p radius height = t at hits ⊢
  cases hits with
  | output hn => exact ⟨_, rfl⟩
  | input houtput hn => exact absurd hon (houtput m hm)
  | body hpin hn => exact absurd hon (hpin m hm .output)
  | canvas hpin hbody => exact absurd hon (hpin m hm .output)

theorem exists_targetAt_input (height : α)
    (houtput : ∀ n ∈ s.diagram.nodes, ¬ s.OnPin p radius .output n)
    (h : ∃ n ∈ s.diagram.nodes, s.OnPin p radius .input n) :
    ∃ id, s.targetAt p radius height = .input id := by
  obtain ⟨m, hm, hon⟩ := h
  have hits := hits_targetAt s p radius height
  generalize s.targetAt p radius height = t at hits ⊢
  cases hits with
  | output hn => exact absurd hn.mem.2 (houtput _ hn.mem.1)
  | input houtput hn => exact ⟨_, rfl⟩
  | body hpin hn => exact absurd hon (hpin m hm .input)
  | canvas hpin hbody => exact absurd hon (hpin m hm .input)

/-! ## presses -/

/-- **What lies under the pointer** is the output of the first node that has its output there, or else
the input of the first node that has its input there, or else the body of the last node that is there,
or else the canvas.  It is a live node, and a press takes it or draws a link from it. -/
theorem target_found (hs : Reached supply s) (p : Point α) (radius height : α) :
    (∀ t, s.targetAt p radius height = t ↔ s.Hits p radius height t) ∧
      (s.targetAt p radius height = .canvas ↔
        ∀ n ∈ s.diagram.nodes, (∀ pin, ¬ s.OnPin p radius pin n) ∧ ¬ s.OnBody p height n) ∧
      (∀ id, (s.targetAt p radius height).node? = some id → id ∈ s.diagram.ids) ∧
      (s.gesture = .idle → p.isFinite = true → ∀ ctrl id,
        (s.targetAt p radius height = .body id → ∃ n, s.diagram.node? id = some n ∧
          s.OnBody p height n ∧ s.pressAt p .primary ctrl radius height = { s with
            gesture := .dragging id (s.viewport.toGraph p - n.position) p false }) ∧
        (s.targetAt p radius height = .output id → ∃ n preview snap, s.diagram.node? id = some n ∧
          s.OnPin p radius .output n ∧ s.previewTo id p = some (preview, snap) ∧
          s.pressAt p .primary ctrl radius height =
            { s with gesture := .wiring id (some preview) snap })) := by
  have hfound : ∀ {id}, (s.targetAt p radius height).node? = some id → _ :=
    (hits_targetAt s p radius height).exists_node hs.sound
  refine ⟨fun t => targetAt_eq_iff, targetAt_eq_canvas_iff, fun id hid => ?_,
    fun hidle hp ctrl id => ⟨fun hbody => ?_, fun houtput => ?_⟩⟩
  · obtain ⟨n, hn, -⟩ := hfound hid
    exact Diagram.isLive_iff.1 (Diagram.isLive_of_node? hn)
  · have hid : (s.targetAt p radius height).node? = some id := by rw [hbody]; rfl
    obtain ⟨n, hn, -, hon⟩ := hfound hid
    have hpressed := press_body hidle hp hn ctrl
    rw [pressed, (Diagram.node?_eq_some hn).2] at hpressed
    refine ⟨n, hn, hon hbody, ?_⟩
    rw [pressAt, hbody]
    exact hpressed
  · have hid : (s.targetAt p radius height).node? = some id := by rw [houtput]; rfl
    obtain ⟨n, hn, hon, -⟩ := hfound hid
    obtain ⟨preview, snap, hpreview⟩ :=
      exists_previewTo (Diagram.isLive_iff.1 (Diagram.isLive_of_node? hn)) p
    refine ⟨n, preview, snap, hn, hon houtput, hpreview, ?_⟩
    rw [pressAt, houtput]
    exact press_output hidle hp hpreview

/-- Of two nodes that overlap, a press takes the one on top. -/
theorem target_found_overlapping :
    ∃ (s : Session Float32) (n : Node Float32), Reached ["a", "b"] s ∧
      (∀ m ∈ s.diagram.nodes, s.OnBody ⟨100.0, 50.0⟩ 100.0 m) ∧ s.diagram.node? "b" = some n ∧
      s.pressAt ⟨100.0, 50.0⟩ .primary false 12.0 100.0 = { s with
        gesture := .dragging "b" (s.viewport.toGraph ⟨100.0, 50.0⟩ - n.position) ⟨100.0, 50.0⟩
          false } := by
  let es : List (Edit Float32) := [.add .linear ⟨0.0, 0.0⟩, .add .linear ⟨10.0, 10.0⟩]
  have hstate : (open? .initial ((Diagram.empty ["a", "b"]).run es)).map (fun s =>
      (s.gesture, decide (∀ m ∈ s.diagram.nodes, s.OnBody ⟨100.0, 50.0⟩ 100.0 m),
        s.targetAt ⟨100.0, 50.0⟩ 12.0 100.0)) = some (.idle, true, .body "b") := by
    decide +kernel
  obtain ⟨s, hopen, hstate⟩ := Option.map_eq_some_iff.1 hstate
  simp only [Prod.mk.injEq, decide_eq_true_eq] at hstate
  obtain ⟨hidle, hall, htarget⟩ := hstate
  have hs : Reached ["a", "b"] s := ⟨.initial, es, s, [], hopen, rfl⟩
  obtain ⟨-, -, -, hpress⟩ := target_found hs ⟨100.0, 50.0⟩ 12.0 100.0
  obtain ⟨n, hn, -, hpressed⟩ := (hpress hidle (by decide +kernel) false "b").1 htarget
  exact ⟨s, n, hs, hall, hn, hpressed⟩

end Session

end Wireboard
