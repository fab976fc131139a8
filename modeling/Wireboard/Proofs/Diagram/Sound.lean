import Wireboard.Proofs.Diagram.Operations

/-!
# Sound diagrams

What every run of edits keeps.

* `Sound d`: no two nodes share an id, every link joins two different nodes of the diagram, and no
  link occurs twice;
* `Proper d`: ids in use and ids still to be drawn are not empty and have no blanks at their ends;
* `Reached supply d`: some run of edits makes `d` of the empty diagram with that supply of ids.
  `Reached.sound` and `Reached.proper` say that the two hold of all these diagrams, and
  `Reached.finite` that their nodes are at places.
-/

namespace Wireboard

namespace Diagram

variable {α : Type} {d d' : Diagram α}

/-! ## soundness -/

/-- Nodes and links fit together. -/
structure Sound (d : Diagram α) : Prop where
  ids_nodup : d.ids.Nodup
  source_live : ∀ l ∈ d.links, l.source ∈ d.ids
  target_live : ∀ l ∈ d.links, l.target ∈ d.ids
  ends_ne : ∀ l ∈ d.links, l.source ≠ l.target
  links_nodup : d.links.Nodup

theorem sound_empty (supply : List String) : (empty supply : Diagram α).Sound := by
  constructor <;> simp [empty, ids]

theorem Sound.of_nodes (h : d.Sound) (hids : d'.ids = d.ids) (hlinks : d'.links = d.links) :
    d'.Sound := by
  obtain ⟨h1, h2, h3, h4, h5⟩ := h
  constructor <;> simpa only [hids, hlinks]

theorem Sound.added (h : d.Sound) {n : Node α} (hn : n.id ∉ d.ids) (rest : List String) :
    ({ d with nodes := d.nodes ++ [n], supply := rest } : Diagram α).Sound := by
  have hids := ids_append d n rest
  constructor
  · rw [hids, List.nodup_append]
    refine ⟨h.ids_nodup, by simp, ?_⟩
    intro x hx y hy hxy
    rw [List.mem_singleton] at hy
    exact hn (hy ▸ hxy ▸ hx)
  · intro l hl
    rw [hids]
    exact List.mem_append_left _ (h.source_live l hl)
  · intro l hl
    rw [hids]
    exact List.mem_append_left _ (h.target_live l hl)
  · exact h.ends_ne
  · exact h.links_nodup

theorem Sound.without (h : d.Sound) (id : String) : (d.without id).Sound := by
  have hlink : ∀ l ∈ (d.without id).links, l ∈ d.links ∧ l.source ≠ id ∧ l.target ≠ id := by
    intro l hl
    simpa [Diagram.without, Link.touches] using hl
  constructor
  · rw [ids_without]
    exact h.ids_nodup.filter _
  · intro l hl
    obtain ⟨hmem, hs, -⟩ := hlink l hl
    exact mem_ids_without.2 ⟨h.source_live l hmem, hs⟩
  · intro l hl
    obtain ⟨hmem, -, ht⟩ := hlink l hl
    exact mem_ids_without.2 ⟨h.target_live l hmem, ht⟩
  · exact fun l hl => h.ends_ne l (hlink l hl).1
  · exact h.links_nodup.filter _

/-- A new id that no other node bears keeps different ids different. -/
theorem rename_injOn {ids : List String} {id name : String} (free : name ∈ ids → name = id) :
    ∀ x ∈ ids, ∀ y ∈ ids,
      (if x = id then name else x) = (if y = id then name else y) → x = y := by
  intro x hx y hy hxy
  split_ifs at hxy with h1 h2 h2
  · rw [h1, h2]
  · subst hxy
    exact absurd (free hy) h2
  · subst hxy
    exact absurd (free hx) h1
  · exact hxy

theorem Sound.renamed (h : d.Sound) {id name : String} (free : name ∈ d.ids → name = id) :
    (d.renamed id name).Sound := by
  have hinj := rename_injOn free
  have hmem : ∀ {x}, x ∈ d.ids → (if x = id then name else x) ∈ (d.renamed id name).ids := by
    intro x hx
    rw [ids_renamed]
    exact List.mem_map_of_mem hx
  constructor
  · rw [ids_renamed]
    exact h.ids_nodup.map_on hinj
  · rintro _ hl'
    obtain ⟨l, hl, rfl⟩ := List.mem_map.1 hl'
    exact hmem (h.source_live l hl)
  · rintro _ hl'
    obtain ⟨l, hl, rfl⟩ := List.mem_map.1 hl'
    exact hmem (h.target_live l hl)
  · rintro _ hl'
    obtain ⟨l, hl, rfl⟩ := List.mem_map.1 hl'
    exact fun he => h.ends_ne l hl (hinj _ (h.source_live l hl) _ (h.target_live l hl) he)
  · refine h.links_nodup.map_on ?_
    rintro ⟨s, t⟩ hl ⟨s', t'⟩ hl' he
    obtain ⟨hs, ht⟩ := Link.mk.inj he
    rw [Link.mk.injEq]
    exact ⟨hinj s (h.source_live _ hl) s' (h.source_live _ hl') hs,
      hinj t (h.target_live _ hl) t' (h.target_live _ hl') ht⟩

/-- A renamed node is found under its new id, and all others are found as before. -/
theorem Sound.node?_renamed (h : d.Sound) {id name x : String} (free : name ∈ d.ids → name = id)
    {n : Node α} (hn : d.node? x = some n) :
    (d.renamed id name).node? (if x = id then name else x) =
      some (if n.id = id then { n with id := name } else n) := by
  obtain ⟨hmem, rfl⟩ := node?_eq_some hn
  have hmem' : (if n.id = id then { n with id := name } else n) ∈ (d.renamed id name).nodes :=
    List.mem_map_of_mem (f := fun n => if n.id = id then { n with id := name } else n) hmem
  have hfound := node?_of_mem (h.renamed free).ids_nodup hmem'
  rw [← hfound]
  congr 1
  split <;> rfl

theorem Sound.flipped (h : d.Sound) {source target : String} (hne : source ≠ target)
    (hs : source ∈ d.ids) (ht : target ∈ d.ids) : (d.flipped source target).Sound := by
  unfold Diagram.flipped
  split
  · have hmem : ∀ l ∈ d.links.erase ⟨source, target⟩, l ∈ d.links := fun l => List.mem_of_mem_erase
    exact ⟨h.ids_nodup, fun l hl => h.source_live l (hmem l hl),
      fun l hl => h.target_live l (hmem l hl), fun l hl => h.ends_ne l (hmem l hl),
      h.links_nodup.erase _⟩
  · next hlink =>
    have hnew : (⟨source, target⟩ : Link) ∉ d.links := fun hmem => hlink (hasLink_iff.2 hmem)
    have hmem : ∀ l ∈ d.links ++ [⟨source, target⟩], l ∈ d.links ∨ l = ⟨source, target⟩ := by
      intro l hl
      simpa using hl
    constructor
    · exact h.ids_nodup
    · intro l hl
      rcases hmem l hl with hl | rfl
      · exact h.source_live l hl
      · exact hs
    · intro l hl
      rcases hmem l hl with hl | rfl
      · exact h.target_live l hl
      · exact ht
    · intro l hl
      rcases hmem l hl with hl | rfl
      · exact h.ends_ne l hl
      · exact hne
    · rw [List.nodup_append]
      refine ⟨h.links_nodup, by simp, ?_⟩
      intro x hx y hy hxy
      rw [List.mem_singleton] at hy
      exact hnew (hy ▸ hxy ▸ hx)

theorem Sound.change (h : d.Sound) {keeps : Bool} (hc : Change d keeps d') : d'.Sound := by
  cases hc with
  | kept => exact h
  | added n skipped rest _ fresh => exact h.added fresh rest
  | removed id => exact h.without id
  | renamed id name _ _ free => exact h.renamed free
  | modified id f keeps => exact h.of_nodes (ids_modify keeps) rfl
  | flipped source target distinct hs ht => exact h.flipped distinct hs ht
  | cleared => constructor <;> simp [clear, ids]

/-! ## proper ids -/

/-- Every id, in use or still to be drawn, is a proper one. -/
structure Proper (d : Diagram α) : Prop where
  ids : ∀ id ∈ d.ids, IsProperId id
  supply : ∀ id ∈ d.supply, IsProperId id

theorem Proper.change (h : d.Proper) {keeps : Bool} (hc : Change d keeps d') : d'.Proper := by
  cases hc with
  | kept => exact h
  | added n skipped rest drawn _ =>
    have hsupply : ∀ id ∈ n.id :: rest, IsProperId id := by
      intro id hid
      exact h.supply id (drawn ▸ List.mem_append_right _ hid)
    refine ⟨?_, fun id hid => hsupply id (List.mem_cons_of_mem _ hid)⟩
    intro id hid
    obtain ⟨m, hm, rfl⟩ := mem_ids.1 hid
    rcases List.mem_append.1 hm with hm | hm
    · exact h.ids _ (mem_ids.2 ⟨m, hm, rfl⟩)
    · rw [List.mem_singleton.1 hm]
      exact hsupply n.id List.mem_cons_self
  | removed id =>
    exact ⟨fun x hx => h.ids x (mem_ids_without.1 hx).1, h.supply⟩
  | renamed id name proper _ _ =>
    refine ⟨?_, h.supply⟩
    rw [ids_renamed, List.forall_mem_map]
    intro x hx
    split
    · exact proper
    · exact h.ids x hx
  | modified id f keeps => exact ⟨by rw [ids_modify keeps]; exact h.ids, h.supply⟩
  | flipped source target _ _ _ =>
    exact ⟨by rw [ids_flipped]; exact h.ids, by rw [supply_flipped]; exact h.supply⟩
  | cleared => exact ⟨by simp [clear, Diagram.ids], h.supply⟩

/-! ## positions -/

theorem finite_step [Scalar α] (h : ∀ n ∈ d.nodes, n.position.isFinite = true) (e : Edit α) :
    ∀ n ∈ (d.step e).nodes, n.position.isFinite = true := by
  intro n hn
  cases he : e.setsParam with
  | false =>
    cases yields_of_mem_step he hn with
    | added l p id drawn finite => exact finite
    | placed n old p finite => exact finite
    | kept n old | renamed n old | typed n old | measured n old => exact h n old
  | true =>
    have heffect := step_effect d e
    generalize d.step e = d' at heffect hn
    rcases heffect with rfl | heffect
    · exact h n hn
    · cases heffect with
      | setParam id name v live =>
        obtain ⟨m, hm, rfl⟩ := List.mem_map.1 hn
        split <;> exact h m hm
      | _ => cases he

/-! ## runs of edits -/

variable [Scalar α]

theorem run_append (d : Diagram α) (es es' : List (Edit α)) :
    d.run (es ++ es') = (d.run es).run es' :=
  List.foldl_append ..

/-- What every change keeps, every run of edits keeps. -/
theorem run_induction {P : Diagram α → Prop}
    (hP : ∀ {d d'} {keeps : Bool}, P d → Change d keeps d' → P d')
    (h : P d) (es : List (Edit α)) : P (d.run es) := by
  induction es generalizing d with
  | nil => exact h
  | cons e es ih => exact ih (hP h (step_change d e))

theorem Sound.run (h : d.Sound) (es : List (Edit α)) : (d.run es).Sound :=
  run_induction (fun h hc => h.change hc) h es

/-- The diagrams that runs of edits make of nothing. -/
def Reached (supply : List String) (d : Diagram α) : Prop :=
  ∃ es : List (Edit α), (empty supply).run es = d

variable {supply : List String}

theorem reached_run (supply : List String) (es : List (Edit α)) :
    Reached supply ((empty supply).run es) :=
  ⟨es, rfl⟩

theorem Reached.step (h : Reached supply d) (e : Edit α) : Reached supply (d.step e) := by
  obtain ⟨es, rfl⟩ := h
  exact ⟨es ++ [e], run_append ..⟩

theorem Reached.sound (h : Reached supply d) : d.Sound := by
  obtain ⟨es, rfl⟩ := h
  exact (sound_empty supply).run es

theorem Reached.proper (h : Reached supply d) (hsupply : ∀ id ∈ supply, IsProperId id) :
    d.Proper := by
  obtain ⟨es, rfl⟩ := h
  exact run_induction (fun h hc => h.change hc) ⟨by simp [empty, ids], hsupply⟩ es

/-- Nodes are only ever put where both coordinates are finite. -/
theorem Reached.finite (h : Reached supply d) : ∀ n ∈ d.nodes, n.position.isFinite = true := by
  obtain ⟨es, rfl⟩ := h
  induction es using List.reverseRecOn with
  | nil => exact fun n hn => by cases hn
  | append_singleton es e ih =>
    rw [run_append]
    exact finite_step ih e

end Diagram

end Wireboard
