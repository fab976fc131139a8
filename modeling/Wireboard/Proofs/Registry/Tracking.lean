import Mathlib.Data.List.Forall2
import Wireboard.Proofs.Diagram.Sound
import Wireboard.Proofs.Registry.Basic

/-!
# Registries that track diagrams

`Tracks r d`: the nodes of the diagram `d` are the entries of the registry `r`, in order, its links
are the pairs, in order, once their ends are read as serial numbers, and serial numbers ascend.

It all rests on `bears_iff`: as long as ids are distinct, they are as different as the serial
numbers that they stand for, so what is decided by ids is decided by serial numbers.  With that, each
of the ways in which an edit can change a diagram has its counterpart for registries.
-/

namespace Wireboard

/-! ## lists in step -/

theorem forall₂_filter {β γ : Type} {R S : β → γ → Prop} {p : β → Bool} {q : γ → Bool}
    {l : List β} {m : List γ} (h : List.Forall₂ R l m) (hpq : ∀ a b, R a b → p a = q b)
    (hS : ∀ a b, R a b → p a = true → S a b) : List.Forall₂ S (l.filter p) (m.filter q) := by
  induction h with
  | nil => exact .nil
  | @cons a b l m hab _ ih =>
    by_cases hp : p a = true
    · rw [List.filter_cons_of_pos hp, List.filter_cons_of_pos (hpq a b hab ▸ hp)]
      exact .cons (hS a b hab hp) ih
    · rw [List.filter_cons_of_neg hp, List.filter_cons_of_neg (hpq a b hab ▸ hp)]
      exact ih

theorem forall₂_erase {β γ : Type} [BEq β] [LawfulBEq β] [BEq γ] [LawfulBEq γ] {R : β → γ → Prop}
    {a₀ : β} {b₀ : γ} {l : List β} {m : List γ} (h : List.Forall₂ R l m)
    (heq : ∀ a b, R a b → (a = a₀ ↔ b = b₀)) : List.Forall₂ R (l.erase a₀) (m.erase b₀) := by
  induction h with
  | nil => exact .nil
  | @cons a b l m hab hlm ih =>
    by_cases ha : a = a₀
    · obtain rfl := (heq a b hab).1 ha
      subst ha
      rw [List.erase_cons_head, List.erase_cons_head]
      exact hlm
    · have hb : b ≠ b₀ := mt (heq a b hab).2 ha
      rw [List.erase_cons_tail (by simpa using ha), List.erase_cons_tail (by simpa using hb)]
      exact .cons hab ih

theorem forall₂_mem_iff {β γ : Type} {R : β → γ → Prop} {a₀ : β} {b₀ : γ} {l : List β}
    {m : List γ} (h : List.Forall₂ R l m) (heq : ∀ a b, R a b → (a = a₀ ↔ b = b₀)) :
    a₀ ∈ l ↔ b₀ ∈ m := by
  induction h with
  | nil => simp
  | @cons a b l m hab _ ih =>
    rw [List.mem_cons, List.mem_cons, ih, eq_comm, heq a b hab, eq_comm]

namespace Registry

variable {α : Type} {r : Registry α} {d : Diagram α}

/-! ## ids and serial numbers -/

/-- The id stands for the serial number at present. -/
def Bears (r : Registry α) (id : String) (k : Nat) : Prop :=
  ∃ e ∈ r.entries, e.node.id = id ∧ e.serial = k

/-- The link and the pair have the same ends. -/
def Stands (r : Registry α) (l : Link) (p : Nat × Nat) : Prop :=
  r.Bears l.source p.1 ∧ r.Bears l.target p.2

/-- The registry and the diagram are the same graph. -/
structure Tracks (r : Registry α) (d : Diagram α) : Prop where
  sound : d.Sound
  nodes : r.nodes = d.nodes
  supply : r.supply = d.supply
  links : List.Forall₂ r.Stands d.links r.pairs
  ascending : r.serials.Pairwise (· < ·)
  below_next : ∀ k ∈ r.serials, k < r.next

theorem holder?_eq_some {id : String} {e : Entry α} (h : r.holder? id = some e) :
    e ∈ r.entries ∧ e.node.id = id := by
  have hid := List.find?_some h
  exact ⟨List.mem_of_find?_eq_some h, by simpa using hid⟩

theorem bears_of_holder? {id : String} {e : Entry α} (h : r.holder? id = some e) :
    r.Bears id e.serial := by
  obtain ⟨hmem, hid⟩ := holder?_eq_some h
  exact ⟨e, hmem, hid, rfl⟩

theorem Tracks.node?_eq (h : Tracks r d) (id : String) :
    d.node? id = (r.holder? id).map (·.node) := by
  have hnodes : d.nodes = r.entries.map (·.node) := h.nodes.symm
  rw [Diagram.node?, hnodes, List.find?_map]
  rfl

theorem Tracks.ids_eq (h : Tracks r d) : r.ids = d.ids := by
  have hnodes : d.nodes = r.entries.map (·.node) := h.nodes.symm
  rw [Diagram.ids, hnodes, List.map_map]
  rfl

theorem Tracks.exists_holder?_iff (h : Tracks r d) {id : String} :
    (∃ e, r.holder? id = some e) ↔ id ∈ d.ids := by
  rw [← Diagram.isLive_iff, ← Diagram.isSome_node?, h.node?_eq, Option.isSome_map,
    Option.isSome_iff_exists]

/-- Ids are as different as the serial numbers that they stand for. -/
theorem Tracks.bears_iff (h : Tracks r d) {x y : String} {j k : Nat} (hx : r.Bears x j)
    (hy : r.Bears y k) : x = y ↔ j = k := by
  obtain ⟨e, he, rfl, rfl⟩ := hx
  obtain ⟨e', he', rfl, rfl⟩ := hy
  constructor
  · intro hid
    -- no two nodes of a sound diagram share an id
    have hnodup : r.ids.Nodup := h.ids_eq ▸ h.sound.ids_nodup
    rw [List.inj_on_of_nodup_map hnodup he he' hid]
  · intro hserial
    -- serial numbers ascend, so no two entries share one either
    have hnodup : r.serials.Nodup := h.ascending.imp fun hlt => Nat.ne_of_lt hlt
    rw [List.inj_on_of_nodup_map hnodup he he' hserial]

theorem Tracks.serial?_of_bears (h : Tracks r d) {id : String} {k : Nat} (hb : r.Bears id k) :
    r.serial? id = some k := by
  obtain ⟨e, he, rfl, rfl⟩ := hb
  have hlive : e.node.id ∈ d.ids := h.ids_eq ▸ List.mem_map_of_mem he
  obtain ⟨e', he'⟩ := h.exists_holder?_iff.2 hlive
  rw [serial?, he', Option.map_some,
    (h.bears_iff (bears_of_holder? he') ⟨e, he, rfl, rfl⟩).1 rfl]

/-- Read through the present ids, the links are the pairs. -/
theorem Tracks.read_links (h : Tracks r d) :
    d.links.map r.read = r.pairs.map fun p => (some p.1, some p.2) := by
  have hlinks := h.links
  generalize d.links = ls, r.pairs = ps at hlinks
  induction hlinks with
  | nil => rfl
  | @cons l p ls ps hlp _ ih =>
    rw [List.map_cons, List.map_cons, ih, read, h.serial?_of_bears hlp.1, h.serial?_of_bears hlp.2]

/-! ## edits of one node -/

variable {id name : String} {e : Entry α} {f : Node α → Node α}

theorem Tracks.serial_eq_iff (h : Tracks r d) (he : r.holder? id = some e) {e' : Entry α}
    (he' : e' ∈ r.entries) : e'.serial = e.serial ↔ e'.node.id = id :=
  (h.bears_iff ⟨e', he', rfl, rfl⟩ (bears_of_holder? he)).symm

theorem Tracks.nodes_amend (h : Tracks r d) (he : r.holder? id = some e) :
    (r.amend e.serial f).nodes = (d.modify id f).nodes := by
  simp only [← h.nodes, Diagram.modify, Registry.nodes, Registry.amend, List.map_map]
  refine List.map_congr_left fun e' he' => ?_
  simp only [Function.comp_apply, h.serial_eq_iff he he']
  split <;> rfl

theorem serials_amend (r : Registry α) (k : Nat) : (r.amend k f).serials = r.serials := by
  simp only [serials, amend, List.map_map]
  refine List.map_congr_left fun e _ => ?_
  rw [Function.comp_apply]
  split <;> rfl

theorem bears_amend {g : String → String} {x : String} {j k : Nat}
    (hg : ∀ e ∈ r.entries, (if e.serial = k then f e.node else e.node).id = g e.node.id)
    (hb : r.Bears x j) : (r.amend k f).Bears (g x) j := by
  obtain ⟨e, he, rfl, rfl⟩ := hb
  refine ⟨_, List.mem_map_of_mem he, ?_, ?_⟩
  · rw [← hg e he]
    split <;> rfl
  · split <;> rfl

/-- A node is changed under its serial number as it is under its id.  Where this changes ids, they
change in the same way at the ends of the links. -/
theorem Tracks.amend (h : Tracks r d) (he : r.holder? id = some e) {d' : Diagram α}
    (g : String → String)
    (hg : ∀ e' ∈ r.entries, (if e'.node.id = id then f e'.node else e'.node).id = g e'.node.id)
    (hsound : d'.Sound) (hnodes : d'.nodes = (d.modify id f).nodes) (hsupply : d'.supply = d.supply)
    (hlinks : d'.links = d.links.map fun l => ⟨g l.source, g l.target⟩) :
    Tracks (r.amend e.serial f) d' := by
  have hg' : ∀ e' ∈ r.entries,
      (if e'.serial = e.serial then f e'.node else e'.node).id = g e'.node.id := by
    intro e' he'
    rw [← hg e' he']
    simp only [h.serial_eq_iff he he']
  constructor
  · exact hsound
  · rw [hnodes, h.nodes_amend he]
  · rw [hsupply]
    exact h.supply
  · rw [hlinks, List.forall₂_map_left_iff]
    exact h.links.imp fun l p hlp => ⟨bears_amend hg' hlp.1, bears_amend hg' hlp.2⟩
  · rw [serials_amend]
    exact h.ascending
  · rw [serials_amend]
    exact h.below_next

theorem Tracks.modify (h : Tracks r d) (he : r.holder? id = some e) (hf : ∀ n, (f n).id = n.id) :
    Tracks (r.amend e.serial f) (d.modify id f) := by
  refine h.amend he (fun x => x) ?_ (h.sound.of_nodes (Diagram.ids_modify hf) rfl) rfl rfl ?_
  · intro e' _
    split
    · exact hf _
    · rfl
  · exact (List.map_id d.links).symm

theorem Tracks.renamed (h : Tracks r d) (he : r.holder? id = some e)
    (hfree : name ∈ d.ids → name = id) :
    Tracks (r.amend e.serial ({ · with id := name })) (d.renamed id name) := by
  refine h.amend he (fun x => if x = id then name else x) ?_ (h.sound.renamed hfree) rfl rfl rfl
  intro e' _
  by_cases hid : e'.node.id = id
  · simp only [if_pos hid]
  · simp only [if_neg hid]

theorem Tracks.without (h : Tracks r d) (he : r.holder? id = some e) :
    Tracks (r.without e.serial) (d.without id) := by
  have hserial : ∀ e' ∈ r.entries, (e'.serial != e.serial) = (e'.node.id != id) := by
    intro e' he'
    rw [Bool.eq_iff_iff, bne_iff_ne, bne_iff_ne, Ne, Ne, h.serial_eq_iff he he']
  have hserials : (r.without e.serial).serials.Sublist r.serials :=
    List.filter_sublist.map _
  constructor
  · exact h.sound.without id
  · simp only [← h.nodes, Diagram.without, Registry.nodes, Registry.without, List.filter_map]
    rw [List.filter_congr hserial]
    rfl
  · exact h.supply
  · refine forall₂_filter h.links ?_ ?_
    -- a link is at the node exactly when its pair is at the serial number
    · rintro l p ⟨hs, ht⟩
      have hb := bears_of_holder? he
      rw [Bool.eq_iff_iff]
      simp [Link.touches, h.bears_iff hs hb, h.bears_iff ht hb]
    -- what is left is between entries that are left
    · rintro l p ⟨hs, ht⟩ hl
      have hl' : l.source ≠ id ∧ l.target ≠ id := by simpa [Link.touches] using hl
      have hkeep : ∀ {x : String} {k : Nat}, x ≠ id → r.Bears x k →
          (r.without e.serial).Bears x k := by
        rintro x k hx ⟨e', he', rfl, rfl⟩
        refine ⟨e', List.mem_filter.2 ⟨he', ?_⟩, rfl, rfl⟩
        rw [hserial e' he']
        simpa using hx
      exact ⟨hkeep hl'.1 hs, hkeep hl'.2 ht⟩
  · exact h.ascending.sublist hserials
  · exact fun k hk => h.below_next k (hserials.subset hk)

section flipped

variable {source target : String} {a b : Entry α}

theorem Tracks.stands_iff (h : Tracks r d) (ha : r.holder? source = some a)
    (hb : r.holder? target = some b) :
    ∀ l p, r.Stands l p → (l = ⟨source, target⟩ ↔ p = (a.serial, b.serial)) := by
  rintro ⟨s, t⟩ ⟨j, k⟩ ⟨hs, ht⟩
  rw [Link.mk.injEq, Prod.mk.injEq, h.bears_iff hs (bears_of_holder? ha),
    h.bears_iff ht (bears_of_holder? hb)]

theorem Tracks.hasLink_iff (h : Tracks r d) (ha : r.holder? source = some a)
    (hb : r.holder? target = some b) :
    d.hasLink source target = true ↔ (a.serial, b.serial) ∈ r.pairs := by
  rw [Diagram.hasLink_iff]
  exact forall₂_mem_iff h.links (h.stands_iff ha hb)

theorem Tracks.flipped (h : Tracks r d) (hne : source ≠ target)
    (ha : r.holder? source = some a) (hb : r.holder? target = some b) :
    Tracks
      { r with
        pairs := if d.hasLink source target then r.pairs.erase (a.serial, b.serial)
          else r.pairs ++ [(a.serial, b.serial)] }
      (d.flipped source target) := by
  have hsound : (d.flipped source target).Sound :=
    h.sound.flipped hne (h.exists_holder?_iff.1 ⟨a, ha⟩) (h.exists_holder?_iff.1 ⟨b, hb⟩)
  refine ⟨hsound, ?_, ?_, ?_, h.ascending, h.below_next⟩
  · rw [Diagram.nodes_flipped]
    exact h.nodes
  · rw [Diagram.supply_flipped]
    exact h.supply
  · unfold Diagram.flipped
    split
    · exact forall₂_erase h.links (h.stands_iff ha hb)
    · exact List.rel_append h.links (.cons ⟨bears_of_holder? ha, bears_of_holder? hb⟩ .nil)

end flipped

theorem Tracks.added (h : Tracks r d) {n : Node α} (hfresh : n.id ∉ d.ids) (rest : List String) :
    Tracks { r with next := r.next + 1, entries := r.entries ++ [⟨r.next, n⟩], supply := rest }
      { d with nodes := d.nodes ++ [n], supply := rest } := by
  refine ⟨h.sound.added hfresh rest, ?_, rfl, ?_, ?_, ?_⟩
  · simp only [← h.nodes, Registry.nodes, List.map_append, List.map_cons, List.map_nil]
  · have hmore : ∀ {x : String} {k : Nat}, r.Bears x k →
        ∃ e ∈ r.entries ++ [⟨r.next, n⟩], e.node.id = x ∧ e.serial = k := by
      rintro x k ⟨e, he, hx, hk⟩
      exact ⟨e, List.mem_append_left _ he, hx, hk⟩
    exact h.links.imp fun l p hlp => ⟨hmore hlp.1, hmore hlp.2⟩
  · simp only [serials, List.map_append, List.map_cons, List.map_nil]
    rw [List.pairwise_append]
    refine ⟨h.ascending, List.pairwise_singleton .., ?_⟩
    intro j hj k hk
    rw [List.mem_singleton.1 hk]
    exact h.below_next j hj
  · intro k hk
    simp only [serials, List.map_append, List.map_cons, List.map_nil] at hk
    rcases List.mem_append.1 hk with hk | hk
    · have hlt := h.below_next k hk
      show k < r.next + 1
      omega
    · rw [List.mem_singleton.1 hk]
      exact Nat.lt_succ_self _

theorem Tracks.cleared (h : Tracks r d) : Tracks { r with entries := [], pairs := [] } d.clear := by
  refine ⟨?_, rfl, h.supply, .nil, .nil, fun k hk => ?_⟩
  · exact h.sound.change .cleared
  · cases hk

theorem tracks_empty (supply : List String) :
    Tracks (empty supply : Registry α) (.empty supply) := by
  refine ⟨Diagram.sound_empty supply, rfl, rfl, .nil, .nil, fun k hk => ?_⟩
  cases hk

end Registry

end Wireboard
