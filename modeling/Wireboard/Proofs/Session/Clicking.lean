import Wireboard.Proofs.Number.Nearest
import Wireboard.Proofs.Session.Dragging

/-!
# Clicking nodes

A press on a node and the release that ends it select the node, unless the pointer has been at another
place of the screen in between.

* `click_or_drag`: whatever happens between press and release, the moves that count are those to
  another place, and one of them is enough;
* `move_move`: a drag forgets where the node was, so moves that all go to one place do what one of them
  does;
* `click_outcome`: with moves to the place of the press alone, the node goes where the pointer is, less
  the grip.  That is where it was but for the rounding of the grip (`Regained`), and need not be where
  it was.
-/

set_option linter.unusedSectionVars false

namespace Wireboard

variable {α : Type} [Scalar α]

theorem any_leaves_eq_true {press : Point α} {as : List (Action α)} :
    as.any (·.leaves press) = true ↔
      ∃ p, .move p ∈ as ∧ p.isFinite = true ∧ (p == press) = false := by
  rw [List.any_eq_true]
  constructor
  · rintro ⟨a, ha, hleaves⟩
    cases a with
    | move p =>
      rw [Action.leaves, Bool.and_eq_true, bne, Bool.not_eq_true'] at hleaves
      exact ⟨p, ha, hleaves⟩
    | _ => cases hleaves
  · rintro ⟨p, hp, hfinite, hne⟩
    exact ⟨_, hp, by rw [Action.leaves, hfinite, bne, hne]; rfl⟩

namespace Session

variable {supply : List String} {s : Session α} {id node : String} {grab press q : Point α}
  {moved : Bool} {n : Node α}

/-! ## press and release -/

/-- The session after a node has been taken at a place of the screen. -/
def pressed (s : Session α) (n : Node α) (q : Point α) : Session α :=
  { s with gesture := .dragging n.id (s.viewport.toGraph q - n.position) q false }

theorem press_body (hidle : s.gesture = .idle) (hq : q.isFinite = true)
    (hn : s.diagram.node? id = some n) (ctrl : Bool) :
    s.step (.press ⟨q, .primary, ctrl, .body id⟩) = s.pressed n q := by
  have hready : (!s.gesture.isIdle || !q.isFinite) = false := by
    rw [hidle, hq]
    rfl
  change s.press _ = _
  unfold press
  rw [if_neg (by simp [hready])]
  simp only [startDragging, hn, pressed, (Diagram.node?_eq_some hn).2]

/-- A node that was not moved is selected. -/
theorem release_of_unmoved (hg : s.gesture = .dragging node grab press false)
    (hlive : node ∈ s.diagram.ids) (p : Point α) (target : Target) :
    s.release p target = { s with gesture := .idle, selection := .only node } := by
  unfold release
  rw [hg]
  exact if_pos (Diagram.isLive_iff.2 hlive)

theorem release_of_moved (hg : s.gesture = .dragging node grab press true) (p : Point α)
    (target : Target) : s.release p target = { s with gesture := .idle } := by
  unfold release
  rw [hg]

/-- **Click or drag.**  A press has taken a node, and whatever was done since has not ended the
gesture.  The release then selects the node, by the name that it has now, if all moves were to the
place of the press; and it leaves the selection alone if one was not.  Where that move was among the
others does not matter, nor do moves to places that are none, nor where the button goes up. -/
theorem click_or_drag (hs : Reached supply s) (hidle : s.gesture = .idle) (hq : q.isFinite = true)
    (hn : s.diagram.node? id = some n) (ctrl : Bool) {as : List (Action α)}
    (has : (s.step (.press ⟨q, .primary, ctrl, .body id⟩)).Lasts as) (p : Point α)
    (target : Target) :
    let taken := s.step (.press ⟨q, .primary, ctrl, .body id⟩)
    let w := taken.run as
    let name := taken.idAfterRun as id
    w.gesture.dragged? = some name ∧ name ∈ w.diagram.ids ∧
    ((∀ p', .move p' ∈ as → p'.isFinite = true → (p' == q) = true) →
      w.release p target = { w with gesture := .idle, selection := .only name }) ∧
    ((∃ p', .move p' ∈ as ∧ p'.isFinite = true ∧ (p' == q) = false) →
      w.release p target = { w with gesture := .idle }) := by
  intro taken w name
  have htaken : taken.Sound := (hs.step _).sound
  have hbegun : taken.gesture = .dragging id (s.viewport.toGraph q - n.position) q false := by
    rw [← (Diagram.node?_eq_some hn).2]
    exact congrArg gesture (press_body hidle hq hn ctrl)
  have hg := dragging_run htaken hbegun has
  rw [Bool.false_or] at hg
  have hdragged : w.gesture.dragged? = some name := by
    rw [hg]
    rfl
  have hlive : name ∈ w.diagram.ids := ((hs.step _).run as).sound.live_of_dragged hdragged
  refine ⟨hdragged, hlive, fun hstays => ?_, fun hleaves => ?_⟩
  · have hnever : as.any (·.leaves q) = false := by
      refine Bool.eq_false_iff.2 fun hany => ?_
      obtain ⟨p', hp', hfinite, hne⟩ := any_leaves_eq_true.1 hany
      rw [hstays p' hp' hfinite] at hne
      cases hne
    rw [hnever] at hg
    exact release_of_unmoved hg hlive p target
  · rw [any_leaves_eq_true.2 hleaves] at hg
    exact release_of_moved hg p target

/-- The pointer leaves the place where a node was pressed and comes back, and the node is renamed in
between: nothing is selected.  If instead the pointer has been nowhere, the node is selected by its new
name. -/
theorem click_or_drag_renamed :
    ∃ s : Session Float32, Reached ["a"] s ∧
      let take : Action Float32 := .press ⟨⟨10.0, 10.0⟩, .primary, false, .body "a"⟩
      ((s.run [take, .move ⟨30.0, 40.0⟩, .rename "a" " b ", .move ⟨10.0, 10.0⟩]).release
        ⟨10.0, 10.0⟩ (.body "b")).selection = .none ∧
      ((s.run [take, .move ⟨0.0 / 0.0, 40.0⟩, .rename "a" " b ", .move ⟨10.0, 10.0⟩]).release
        ⟨70.0, 10.0⟩ .canvas).selection = .only "b" := by
  let es : List (Edit Float32) := [.add .linear ⟨0.0, 0.0⟩]
  let take : Action Float32 := .press ⟨⟨10.0, 10.0⟩, .primary, false, .body "a"⟩
  let away : List (Action Float32) := [.move ⟨30.0, 40.0⟩, .rename "a" " b ", .move ⟨10.0, 10.0⟩]
  let nowhere : List (Action Float32) :=
    [.move ⟨0.0 / 0.0, 40.0⟩, .rename "a" " b ", .move ⟨10.0, 10.0⟩]
  have hstate : (open? .initial ((Diagram.empty ["a"]).run es)).map (fun s =>
      (s.gesture.isIdle, (s.diagram.node? "a").isSome, (s.run (take :: away)).selection,
        (s.step take).idAfterRun nowhere "a")) = some (true, true, .none, "b") := by
    decide +kernel
  have hbusy : (open? .initial ((Diagram.empty ["a"]).run es)).map (fun s =>
      decide ((s.step take).gesture ≠ .idle ∧
        (∀ bs ∈ away.inits, ((s.step take).run bs).gesture ≠ .idle) ∧
        ∀ bs ∈ nowhere.inits, ((s.step take).run bs).gesture ≠ .idle)) = some true := by
    decide +kernel
  obtain ⟨s, hopen, hstate⟩ := Option.map_eq_some_iff.1 hstate
  rw [hopen, Option.map_some, Option.some.injEq, decide_eq_true_iff] at hbusy
  simp only [Prod.mk.injEq] at hstate
  obtain ⟨hidle, hlive, hselection, hname⟩ := hstate
  obtain ⟨htaken, haway, hnowhere⟩ := hbusy
  obtain ⟨n, hn⟩ := Option.isSome_iff_exists.1 hlive
  have hs : Reached ["a"] s := ⟨.initial, es, s, [], hopen, rfl⟩
  have hidle : s.gesture = .idle := Gesture.isIdle_iff.1 hidle
  refine ⟨s, hs, ?_, ?_⟩
  · obtain ⟨-, -, -, hdrag⟩ := click_or_drag hs hidle (q := ⟨10.0, 10.0⟩) (by decide +kernel) hn false
      ((lasts_iff (hs.step take).sound htaken).2 haway) ⟨10.0, 10.0⟩ (.body "b")
    have hleft := hdrag ⟨⟨30.0, 40.0⟩, by simp [away], by decide +kernel, by decide +kernel⟩
    exact (congrArg selection hleft).trans hselection
  · obtain ⟨-, -, hclick, -⟩ := click_or_drag hs hidle (q := ⟨10.0, 10.0⟩) (by decide +kernel) hn false
      ((lasts_iff (hs.step take).sound htaken).2 hnowhere) ⟨70.0, 10.0⟩ .canvas
    refine (congrArg selection (hclick fun p hp hfinite => ?_)).trans (congrArg Selection.only hname)
    simp only [nowhere, List.mem_cons, Action.move.injEq, reduceCtorEq, false_or,
      List.not_mem_nil, or_false] at hp
    rcases hp with rfl | rfl
    · exact absurd hfinite (by decide +kernel)
    · decide +kernel

/-! ## moves to one place -/

theorem modify_modify (d : Diagram α) (p : Point α) :
    (d.modify node ({ · with position := p })).modify node ({ · with position := p }) =
      d.modify node ({ · with position := p }) := by
  unfold Diagram.modify
  rw [List.map_map]
  refine congrArg (fun ns => { d with nodes := ns }) (List.map_congr_left fun m _ => ?_)
  by_cases hm : m.id = node
  · simp [hm]
  · simp [hm]

/-- A second move to the same place does nothing. -/
theorem move_move (hs : s.Sound) (hg : s.gesture = .dragging node grab press moved) (p : Point α) :
    (s.move p).move p = s.move p := by
  cases hp : p.isFinite with
  | false => rw [move_of_not_finite hp, move_of_not_finite hp]
  | true =>
    have hlive : s.diagram.isLive node = true :=
      Diagram.isLive_iff.2 (hs.live_of_dragged (by rw [hg]; rfl))
    cases hplace : (s.viewport.toGraph p - grab).isFinite with
    | false =>
      rw [move_dragging_astray hp hg hplace]
      exact move_idle rfl p
    | true =>
      have hlive' : (s.move p).diagram.isLive node = true := by
        refine Diagram.isLive_iff.2 ((hs.move p).live_of_dragged ?_)
        rw [move_dragging hp hg hlive hplace]
        rfl
      rw [move_dragging hp hg hlive hplace] at hlive' ⊢
      rw [move_dragging hp rfl hlive' hplace, modify_modify, Bool.or_assoc, Bool.or_self]

theorem run_moves (hs : s.Sound) (hg : s.gesture = .dragging node grab press moved) (p : Point α)
    (k : Nat) : s.run (List.replicate (k + 1) (.move p)) = s.move p := by
  induction k with
  | zero => rfl
  | succ k ih =>
    rw [List.replicate_succ', run_append, ih]
    exact move_move hs hg p

/-! ## clicks -/

/-- A node is pressed and let go, and the pointer does not leave the place; events that it has moved
may come all the same. -/
def click (q : Point α) (ctrl : Bool) (id : String) (moves : Nat) (target : Target) :
    List (Action α) :=
  .press ⟨q, .primary, ctrl, .body id⟩ :: (List.replicate moves (.move q) ++ [.release q target])

theorem Sound.pressed (hs : s.Sound) (hidle : s.gesture = .idle) (hq : q.isFinite = true)
    (hn : s.diagram.node? id = some n) : (s.pressed n q).Sound := by
  rw [← press_body hidle hq hn false]
  exact hs.step _

theorem run_click (hidle : s.gesture = .idle) (hq : q.isFinite = true)
    (hn : s.diagram.node? id = some n) (ctrl : Bool) (moves : Nat) (target : Target) :
    s.run (click q ctrl id moves target) =
      ((s.pressed n q).run (List.replicate moves (.move q))).release q target := by
  rw [← press_body hidle hq hn ctrl, click]
  exact run_append _ _ _

section outcomes

variable (hs : s.Sound) (hidle : s.gesture = .idle) (hq : q.isFinite = true)
  (hn : s.diagram.node? id = some n) (ctrl : Bool) (target : Target)
include hs hidle hq hn

theorem run_click_of_unmoved :
    s.run (click q ctrl id 0 target) = { s with selection := .only id } := by
  have hlive := Diagram.isLive_iff.1 (Diagram.isLive_of_node? hn)
  obtain rfl := (Diagram.node?_eq_some hn).2
  rw [run_click hidle hq hn]
  refine (release_of_unmoved (s := s.pressed n q) rfl hlive q target).trans ?_
  rw [pressed, ← hidle]

/-- Moves to a place that is none end the click. -/
theorem run_click_of_astray
    (hplace : (s.viewport.toGraph q - (s.viewport.toGraph q - n.position)).isFinite = false)
    (k : Nat) : s.run (click q ctrl id (k + 1) target) = s := by
  have hback : { s with gesture := .idle } = s := by rw [← hidle]
  rw [run_click hidle hq hn, run_moves (hs.pressed hidle hq hn) rfl,
    move_dragging_astray (s := s.pressed n q) hq rfl hplace]
  exact hback

/-- Moves to the place of the press put the node where it was, or so. -/
theorem run_click_of_moved (hself : (q == q) = true)
    (hplace : (s.viewport.toGraph q - (s.viewport.toGraph q - n.position)).isFinite = true)
    (k : Nat) : s.run (click q ctrl id (k + 1) target) = { s with
      diagram := s.diagram.modify id
        ({ · with position := s.viewport.toGraph q - (s.viewport.toGraph q - n.position) })
      selection := .only id } := by
  have hlive := Diagram.isLive_of_node? hn
  have hpressed := hs.pressed hidle hq hn
  obtain rfl := (Diagram.node?_eq_some hn).2
  have hmove := move_dragging (s := s.pressed n q) hq rfl hlive hplace
  rw [bne, hself, Bool.not_true, Bool.or_false] at hmove
  have hlive' : n.id ∈ ((s.pressed n q).move q).diagram.ids :=
    (hpressed.move q).live_of_dragged (by rw [hmove]; rfl)
  rw [run_click hidle hq hn, run_moves hpressed rfl]
  refine (release_of_unmoved (congrArg gesture hmove) hlive' q target).trans ?_
  rw [hmove, pressed, ← hidle]

end outcomes

/-! ## clicks in single precision -/

/-- Of the coordinate `x` of a node, which was taken at `g`, this is left: `y`. -/
structure Regained (g x y : Float32) : Prop where
  /-- It differs from `x` by the last bit of the grip at most, -/
  near : |Single.value y - Single.value x| ≤ |Single.value g - Single.value x| / 2 ^ 23
  /-- and not at all if the grip is exact, -/
  exact : Single.value (g - x) = Single.value g - Single.value x → Single.value y = Single.value x
  /-- as it is between whole numbers that are not too far apart. -/
  whole : ∀ k l : Int, Single.value g = k → Single.value x = l → |k - l| < 2 ^ 24 →
    Single.value y = Single.value x

theorem regained_sub_sub {g x : Float32} (h : (g - (g - x)).isFinite = true) :
    Regained g x (g - (g - x)) where
  near := Single.abs_sub_sub_le_div h
  exact := Single.value_sub_sub h
  whole _ _ hg hx hnear :=
    Single.value_sub_sub h (Single.value_sub_of_whole (Single.isFinite_of_sub h).2 hg hx hnear)

theorem beq_self_of_isFinite {q : Point Float32} (hq : q.isFinite = true) : (q == q) = true := by
  obtain ⟨hx, hy⟩ := Bool.and_eq_true_iff.1 hq
  exact Bool.and_eq_true_iff.2 ⟨Single.beq_self hx, Single.beq_self hy⟩

variable {s : Session Float32} {q : Point Float32} {n : Node Float32}

/-- **What a click does.**  Without a move it selects the node and does nothing else.  With moves, however
many they are, the node also goes to the place of the pointer less the grip, in each coordinate
`g - (g - x)`.  Where that is no place, the node stays and is not selected. -/
theorem click_outcome (hs : Reached supply s) (hidle : s.gesture = .idle) (hq : q.isFinite = true)
    (hn : s.diagram.node? id = some n)
    (hgrip : (s.viewport.toGraph q - n.position).isFinite = true) (ctrl : Bool) (moves : Nat)
    (target : Target) :
    let g := s.viewport.toGraph q
    let place := g - (g - n.position)
    let after := s.run (click q ctrl id moves target)
    g.isFinite = true ∧
    (moves = 0 → after = { s with selection := .only id }) ∧
    (0 < moves → place.isFinite = false → after = s) ∧
    (0 < moves → place.isFinite = true →
      (after.diagram.node? id).map (·.position) = some place ∧
      (∃ d, Puts id place s.diagram d ∧ after = { s with diagram := d, selection := .only id }) ∧
      Regained g.x n.position.x place.x ∧ Regained g.y n.position.y place.y) := by
  intro g place after
  obtain ⟨hgripx, hgripy⟩ := Bool.and_eq_true_iff.1 hgrip
  refine ⟨?_, ?_, fun hmoves hastray => ?_, fun hmoves hplace => ?_⟩
  · exact Bool.and_eq_true_iff.2
      ⟨(Single.isFinite_of_sub hgripx).1, (Single.isFinite_of_sub hgripy).1⟩
  · rintro rfl
    exact run_click_of_unmoved hs.sound hidle hq hn ctrl target
  · obtain ⟨k, rfl⟩ := Nat.exists_eq_add_one.2 hmoves
    exact run_click_of_astray hs.sound hidle hq hn ctrl target hastray k
  · obtain ⟨k, rfl⟩ := Nat.exists_eq_add_one.2 hmoves
    have hlive : id ∈ s.diagram.ids := Diagram.isLive_iff.1 (Diagram.isLive_of_node? hn)
    have hafter : after = _ :=
      run_click_of_moved hs.sound hidle hq hn ctrl target (beq_self_of_isFinite hq) hplace k
    obtain ⟨hx, hy⟩ := Bool.and_eq_true_iff.1 hplace
    refine ⟨?_, ⟨_, puts_modify hs.sound.diagram.ids_nodup hlive place, hafter⟩,
      regained_sub_sub hx, regained_sub_sub hy⟩
    rw [hafter]
    exact position_modify hlive place

/-- A node at a tenth is taken a hundred away from there, and the pointer stays where it is.  The node
goes a little to the left and is selected. -/
theorem click_outcome_nudged :
    ∃ s : Session Float32, Reached ["a"] s ∧
      let after := s.run (click ⟨100.0, 20.0⟩ false "a" 3 (.body "a"))
      (after.diagram.node? "a").map (·.position) = some ⟨0.099998474, 0.0⟩ ∧
        after.selection = .only "a" ∧ Regained 100.0 0.1 0.099998474 := by
  let es : List (Edit Float32) := [.add .linear ⟨0.1, 0.0⟩]
  have hstate : (open? .initial ((Diagram.empty ["a"]).run es)).map (fun s =>
      (s.gesture, (s.diagram.node? "a").map (·.position),
        s.viewport.toGraph ⟨100.0, 20.0⟩)) =
      some (.idle, some ⟨0.1, 0.0⟩, ⟨100.0, 20.0⟩) := by
    decide +kernel
  obtain ⟨s, hopen, hstate⟩ := Option.map_eq_some_iff.1 hstate
  simp only [Prod.mk.injEq] at hstate
  obtain ⟨hidle, hposition, hgraph⟩ := hstate
  obtain ⟨n, hn, hposition⟩ := Option.map_eq_some_iff.1 hposition
  have hs : Reached ["a"] s := ⟨.initial, es, s, [], hopen, rfl⟩
  have houtcome := click_outcome hs hidle (q := ⟨100.0, 20.0⟩) (by decide +kernel) hn
    (by rw [hgraph, hposition]; decide +kernel) false 3 (.body "a")
  rw [hgraph, hposition] at houtcome
  have hplace : (⟨100.0, 20.0⟩ - (⟨100.0, 20.0⟩ - ⟨0.1, 0.0⟩) : Point Float32) =
      ⟨0.099998474, 0.0⟩ := by decide +kernel
  dsimp only at houtcome
  rw [hplace] at houtcome
  obtain ⟨hposition, ⟨d, -, hafter⟩, hregained, -⟩ := houtcome.2.2.2 (by decide) (by decide +kernel)
  exact ⟨s, hs, hposition, congrArg selection hafter, hregained⟩

/-- So a click can move a node, and not only from one zero to the other. -/
theorem not_click_keeps_position :
    ∃ (s : Session Float32) (n n' : Node Float32), Reached ["a"] s ∧ s.gesture = .idle ∧
      s.diagram.node? "a" = some n ∧ (s.viewport.toGraph ⟨100.0, 20.0⟩ - n.position).isFinite = true ∧
      (s.run (click ⟨100.0, 20.0⟩ false "a" 1 (.body "a"))).diagram.node? "a" = some n' ∧
      (n'.position == n.position) = false := by
  let es : List (Edit Float32) := [.add .linear ⟨0.1, 0.0⟩]
  have hstate : (open? .initial ((Diagram.empty ["a"]).run es)).map (fun s =>
      (s.gesture, (s.diagram.node? "a").map (·.position), s.viewport.toGraph ⟨100.0, 20.0⟩,
        ((s.run (click ⟨100.0, 20.0⟩ false "a" 1 (.body "a"))).diagram.node? "a").map
          (·.position))) =
      some (.idle, some ⟨0.1, 0.0⟩, ⟨100.0, 20.0⟩, some ⟨0.099998474, 0.0⟩) := by
    decide +kernel
  obtain ⟨s, hopen, hstate⟩ := Option.map_eq_some_iff.1 hstate
  simp only [Prod.mk.injEq] at hstate
  obtain ⟨hidle, hbefore, hgraph, hafter⟩ := hstate
  obtain ⟨n, hn, hbefore⟩ := Option.map_eq_some_iff.1 hbefore
  obtain ⟨n', hn', hafter⟩ := Option.map_eq_some_iff.1 hafter
  refine ⟨s, n, n', ⟨.initial, es, s, [], hopen, rfl⟩, hidle, hn, ?_, hn', ?_⟩
  · rw [hgraph, hbefore]
    decide +kernel
  · rw [hbefore, hafter]
    decide +kernel

end Session

end Wireboard
