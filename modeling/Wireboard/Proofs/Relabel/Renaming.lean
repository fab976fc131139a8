import Wireboard.Proofs.Relabel.Session
import Wireboard.Proofs.Session.Sound

/-!
# Renaming is relabelling

A rename goes through the nodes, the links, the selection and the gesture and puts one id in the
place of another.  In a sound session the new id occurs nowhere before, so this is the same as
swapping the two ids throughout (`rename_eq_relabel`), and relabelled sessions behave alike.
-/

set_option linter.unusedSectionVars false

namespace Wireboard

variable {α : Type} {a b : String}

/-- Where `b` does not occur, it takes the place of `a` when the two are swapped. -/
theorem swap_eq_of_ne {x : String} (hx : x ≠ b) :
    Equiv.swap a b x = if x = a then b else x := by
  by_cases hxa : x = a
  · rw [if_pos hxa, hxa, Equiv.swap_apply_left]
  · rw [if_neg hxa, Equiv.swap_apply_of_ne_of_ne hxa hx]

theorem Diagram.renamed_eq_relabel {d : Diagram α} (hd : d.Sound) (hb : b ∉ d.ids) :
    d.renamed a b = d.relabel (Equiv.swap a b) := by
  have hne : ∀ {x}, x ∈ d.ids → x ≠ b := fun hx hxb => hb (hxb ▸ hx)
  have hnodes : (d.modify a ({ · with id := b })).nodes =
      d.nodes.map (·.relabel (Equiv.swap a b)) := by
    refine List.map_congr_left fun n hn => ?_
    rw [Node.relabel, swap_eq_of_ne (hne (mem_ids.2 ⟨n, hn, rfl⟩))]
    by_cases hid : n.id = a
    · rw [if_pos hid, if_pos hid]
    · rw [if_neg hid, if_neg hid]
  have hlinks : d.links.map (·.rename a b) = d.links.map (·.relabel (Equiv.swap a b)) := by
    refine List.map_congr_left fun l hl => ?_
    rw [Link.rename, Link.relabel, swap_eq_of_ne (hne (hd.source_live l hl)),
      swap_eq_of_ne (hne (hd.target_live l hl))]
  simp only [renamed, Diagram.relabel, hnodes, hlinks]
  rfl

theorem Selection.rename_eq_relabel {s : Selection} (hb : s.id ≠ some b) :
    s.rename a b = s.relabel (Equiv.swap a b) := by
  rcases s with ⟨_ | x⟩
  · rfl
  · have hx : x ≠ b := fun h => hb (congrArg some h)
    simp only [rename, contains, only, Selection.relabel, Option.map_some, swap_eq_of_ne hx,
      beq_iff_eq, Option.some.injEq]
    split_ifs <;> rfl

theorem Gesture.rename_eq_relabel {g : Gesture α} {ids : List String} (hg : g.Sound ids)
    (hb : b ∉ ids) : g.rename a b = g.relabel (Equiv.swap a b) := by
  have hne : ∀ {x}, x ∈ ids → x ≠ b := fun hx hxb => hb (hxb ▸ hx)
  cases g with
  | idle => rfl
  | panning anchor origin => rfl
  | dragging node grab press moved =>
    rw [rename, Gesture.relabel, swap_eq_of_ne (hne hg)]
  | wiring source preview snap =>
    obtain ⟨hsource, -, hsnap⟩ := hg
    rw [rename, Gesture.relabel, swap_eq_of_ne (hne hsource), rename_snap]
    congr 1
    refine Option.map_congr fun t ht => ?_
    rw [swap_eq_of_ne (hne (hsnap t ht).1)]

namespace Session

variable [Scalar α] {s s' : Session α} {supply : List String} {raw : String}

/-- **Renaming is swapping two ids.** -/
theorem rename_eq_relabel (hs : s.Sound) (h : s.rename a raw = (true, s')) (hne : trimmed raw ≠ a) :
    a ∈ s.diagram.ids ∧ trimmed raw ∉ s.diagram.ids ∧
      s' = s.relabel (Equiv.swap a (trimmed raw)) := by
  obtain ⟨b, hd, rfl⟩ := rename_eq_true h
  obtain ⟨rfl, -, hlive, hfree, -⟩ := Diagram.rename_eq_ok_iff.1 hd
  have hb : trimmed raw ∉ s.diagram.ids := fun hmem => hne (hfree hmem)
  have hselection : s.selection.id ≠ some (trimmed raw) := fun hsel => hb (hs.selection _ hsel)
  refine ⟨hlive, hb, ?_⟩
  rw [Diagram.renamed_eq_relabel hs.diagram hb, Selection.rename_eq_relabel hselection,
    Gesture.rename_eq_relabel hs.gesture hb]
  rfl

/-- After a rename, the node can be given its old id back, and everything is as before. -/
theorem rename_back (hs : s.Sound) (ha : IsProperId a) (h : s.rename a raw = (true, s'))
    (hne : trimmed raw ≠ a) : s'.rename (trimmed raw) a = (true, s) := by
  obtain ⟨hlive, hb, hs'⟩ := rename_eq_relabel hs h hne
  have hsound : s'.Sound := by
    have hrename := hs.rename a raw
    rwa [h] at hrename
  have hids : s'.diagram.ids = s.diagram.ids.map (Equiv.swap a (trimmed raw)) := by
    rw [hs']
    exact Diagram.ids_relabel _ s.diagram
  -- the two ids have changed places, so it is now the old one that is free
  have hlive' : trimmed raw ∈ s'.diagram.ids := by
    rw [hids]
    exact List.mem_map.2 ⟨a, hlive, Equiv.swap_apply_left ..⟩
  have hfree : a ∉ s'.diagram.ids := by
    rw [hids]
    intro hmem
    obtain ⟨x, hx, hxa⟩ := List.mem_map.1 hmem
    rw [Equiv.swap_apply_eq_iff, Equiv.swap_apply_left] at hxa
    exact hb (hxa ▸ hx)
  obtain ⟨hnonempty, htrimmed⟩ := ha
  have hd : s'.diagram.rename (trimmed raw) a = .ok (a, s'.diagram.renamed (trimmed raw) a) :=
    Diagram.rename_eq_ok_iff.2
      ⟨htrimmed.symm, hnonempty, hlive', fun hmem => absurd hmem hfree, rfl⟩
  obtain ⟨s'', hback⟩ : ∃ s'', s'.rename (trimmed raw) a = (true, s'') := by
    unfold rename
    rw [hd]
    exact ⟨_, rfl⟩
  have hne' : trimmed a ≠ trimmed raw := by
    rw [htrimmed]
    exact hne.symm
  -- and swapping them once more is swapping them back
  obtain ⟨-, -, hs''⟩ := rename_eq_relabel hsound hback hne'
  rw [htrimmed, Equiv.swap_comm, hs', relabel_relabel, Equiv.swap_swap, relabel_refl] at hs''
  rw [hback, hs'']

/-- **A rename is invisible to everything but ids.**  In every session that runs lead to, whatever
the gesture, renaming is swapping the old id and the new one.  From then on, actions with the two ids
swapped in them do to the renamed session what they would have done before, and are answered alike.
If the supply has proper ids, renaming back restores the session. -/
theorem rename_invisible (hs : Reached supply s) (h : s.rename a raw = (true, s'))
    (hne : trimmed raw ≠ a) :
    let R := Equiv.swap a (trimmed raw)
    s' = s.relabel R ∧
      (∀ as : List (Action α), (∀ x ∈ as, x.givesNoId = true) →
        s'.run (as.map (·.relabel R)) = (s.run as).relabel R ∧
          s'.replies (as.map (·.relabel R)) = (s.replies as).map (·.relabel R)) ∧
      ((∀ id ∈ supply, IsProperId id) → s'.rename (trimmed raw) a = (true, s)) := by
  intro R
  obtain ⟨hlive, -, hs'⟩ := rename_eq_relabel hs.sound h hne
  refine ⟨hs', fun as has => ?_, fun hsupply => ?_⟩
  · rw [hs']
    exact ⟨run_relabel R s has, replies_relabel R s has⟩
  · exact rename_back hs.sound ((hs.diagram.proper hsupply).ids a hlive) h hne

/-- The node that a link being drawn has snapped to is renamed, the link is let go over it, and the
name is taken back. -/
theorem rename_invisible_wiring :
    ∃ s s' : Session Float32, Reached (generatedIds 0 2) s ∧
      s.gesture.snap? = some "AAAAAAAB" ∧ s.rename "AAAAAAAB" " out " = (true, s') ∧
      s' = s.relabel (Equiv.swap "AAAAAAAB" (trimmed " out ")) ∧
      s'.run [.release ⟨390.0, 55.0⟩
          (.input (Equiv.swap "AAAAAAAB" (trimmed " out ") "AAAAAAAB"))] =
        (s.run [.release ⟨390.0, 55.0⟩ (.input "AAAAAAAB")]).relabel
          (Equiv.swap "AAAAAAAB" (trimmed " out ")) ∧
      s'.rename (trimmed " out ") "AAAAAAAB" = (true, s) := by
  let es : List (Edit Float32) := [.add .linear ⟨0.0, 0.0⟩, .add .linear ⟨400.0, 0.0⟩]
  let as : List (Action Float32) :=
    [.press ⟨⟨278.0, 50.0⟩, .primary, false, .output "AAAAAAAA"⟩, .move ⟨390.0, 55.0⟩]
  obtain ⟨s₀, hopen⟩ := exists_open? .initial ((Diagram.empty (generatedIds 0 2)).run es)
  have hsnap : (open? .initial ((Diagram.empty (generatedIds 0 2)).run es)).map
      (fun s₀ => (s₀.run as).gesture.snap?) = some (some "AAAAAAAB") := by decide +kernel
  have hrename : (open? .initial ((Diagram.empty (generatedIds 0 2)).run es)).map
      (fun s₀ => ((s₀.run as).rename "AAAAAAAB" " out ").1) = some true := by decide +kernel
  rw [hopen, Option.map_some, Option.some.injEq] at hsnap hrename
  have hs : Reached (generatedIds 0 2) (s₀.run as) := ⟨.initial, es, s₀, as, hopen, rfl⟩
  obtain ⟨hswap, hrun, hback⟩ := rename_invisible hs (Prod.ext hrename rfl)
    (by decide +kernel : trimmed " out " ≠ "AAAAAAAB")
  obtain ⟨hrelease, -⟩ :=
    hrun [.release ⟨390.0, 55.0⟩ (.input "AAAAAAAB")] (by simp [Action.givesNoId])
  exact ⟨s₀.run as, _, hs, hsnap, Prod.ext hrename rfl, hswap, hrelease,
    hback fun _ => isProperId_of_mem_generatedIds⟩

end Session

end Wireboard
