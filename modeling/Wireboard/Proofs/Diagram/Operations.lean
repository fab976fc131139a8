import Wireboard.Proofs.Diagram.Ids
import Wireboard.Proofs.Diagram.Queries

/-!
# What the operations do

For every operation on a diagram, when it is carried out, and what it answers and leaves then.

* `Layer.ofName?_eq_some_iff`: the names of a layer;
* `rename_eq_ok_iff`, `toggle_eq_ok_iff`, …: the operation answers and leaves this exactly when
  these conditions hold;
* `Effect`: what an edit that is carried out makes of the diagram (`step_effect`);
* `Change`: the ways in which an edit can change a diagram (`step_change`);
* `Yields`: the nodes, one by one, that an edit leaves behind (`yields_of_mem_step`).

Facts that every edit keeps are proved by cases on one of these.
-/

namespace Wireboard

theorem map_eq_ok {ε β γ : Type} {f : β → γ} {x : Except ε β} {c : γ} (h : x.map f = .ok c) :
    ∃ b, x = .ok b ∧ f b = c := by
  cases x with
  | error e => cases h
  | ok b => exact ⟨b, rfl, Except.ok.inj h⟩

namespace Layer

theorem find?_all (l : Layer) :
    all.find? (fun k => k.tag == l.tag || k.short == l.tag) = some l ∧
      all.find? (fun k => k.tag == l.short || k.short == l.short) = some l := by
  cases l <;> decide

/-- A layer is called by its tag and by its short name, and no two are called the same. -/
theorem ofName?_eq_some_iff {name : String} {l : Layer} :
    ofName? name = some l ↔ trimmed name = l.tag ∨ trimmed name = l.short := by
  simp only [ofName?]
  constructor
  · intro h
    have hl := List.find?_some h
    simp only [Bool.or_eq_true, beq_iff_eq] at hl
    exact hl.imp Eq.symm Eq.symm
  · rintro (h | h) <;> rw [h]
    · exact (find?_all l).1
    · exact (find?_all l).2

end Layer

/-- The edits that leave every node its id, and all nodes in their order. -/
def Edit.keepsIds {α : Type} : Edit α → Bool
  | .update .. | .setParam .. | .setPosition .. | .setWidth .. | .toggle .. => true
  | _ => false

/-- The edits that give a node another id. -/
def Edit.renames {α : Type} : Edit α → Bool
  | .rename .. => true
  | _ => false

/-- The edits that store a value that nobody has checked. -/
def Edit.setsParam {α : Type} : Edit α → Bool
  | .setParam .. => true
  | _ => false

namespace Diagram

variable {α : Type}

/-! ## results -/

/-- The diagram without a node and without the links at it. -/
def without (d : Diagram α) (id : String) : Diagram α :=
  { d with nodes := d.nodes.filter (·.id != id), links := d.links.filter (!·.touches id) }

/-- The diagram with another id in the place of a node's, at the node and in its links. -/
def renamed (d : Diagram α) (id name : String) : Diagram α :=
  { d.modify id ({ · with id := name }) with links := d.links.map (·.rename id name) }

/-- The diagram with a link removed if it was there and appended if it was not. -/
def flipped (d : Diagram α) (source target : String) : Diagram α :=
  if d.hasLink source target then { d with links := d.links.erase ⟨source, target⟩ }
  else { d with links := d.links ++ [⟨source, target⟩] }

theorem renamed_self (d : Diagram α) (id : String) : d.renamed id id = d := by
  have hmod : d.modify id ({ · with id := id }) = d := by
    refine modify_eq_self ?_
    rintro n - rfl
    rfl
  have hlinks : d.links.map (·.rename id id) = d.links := by
    conv_rhs => rw [← List.map_id d.links]
    refine List.map_congr_left fun l _ => ?_
    rcases l with ⟨source, target⟩
    simp only [Link.rename, id_eq, Link.mk.injEq]
    constructor <;> split_ifs with h <;> simp [h]
  simp only [renamed, hmod, hlinks]

@[simp] theorem nodes_flipped (d : Diagram α) (source target : String) :
    (d.flipped source target).nodes = d.nodes := by
  unfold flipped; split <;> rfl

@[simp] theorem supply_flipped (d : Diagram α) (source target : String) :
    (d.flipped source target).supply = d.supply := by
  unfold flipped; split <;> rfl

@[simp] theorem ids_flipped (d : Diagram α) (source target : String) :
    (d.flipped source target).ids = d.ids := by
  simp [ids]

theorem ids_append (d : Diagram α) (n : Node α) (rest : List String) :
    ({ d with nodes := d.nodes ++ [n], supply := rest } : Diagram α).ids = d.ids ++ [n.id] := by
  simp [ids]

theorem ids_without (d : Diagram α) (id : String) :
    (d.without id).ids = d.ids.filter (· != id) := by
  simp only [ids, without, List.filter_map]
  rfl

theorem mem_ids_without {d : Diagram α} {id x : String} :
    x ∈ (d.without id).ids ↔ x ∈ d.ids ∧ x ≠ id := by
  rw [ids_without, List.mem_filter, bne_iff_ne]

theorem ids_renamed (d : Diagram α) (id name : String) :
    (d.renamed id name).ids = d.ids.map fun x => if x = id then name else x :=
  ids_modify_id name

theorem mem_ids_renamed {d : Diagram α} {id name x : String} (hid : id ∈ d.ids) :
    x ∈ (d.renamed id name).ids ↔ x = name ∨ x ∈ d.ids ∧ x ≠ id := by
  rw [ids_renamed, List.mem_map]
  constructor
  · rintro ⟨y, hy, rfl⟩
    by_cases he : y = id
    · exact .inl (if_pos he)
    · rw [if_neg he]
      exact .inr ⟨hy, he⟩
  · rintro (rfl | ⟨hx, hne⟩)
    · exact ⟨id, hid, if_pos rfl⟩
    · exact ⟨x, hx, if_neg hne⟩

/-! ## looking nodes up afterwards -/

theorem node?_modify (d : Diagram α) {id : String} {f : Node α → Node α} (hf : ∀ n, (f n).id = n.id)
    (x : String) :
    (d.modify id f).node? x = (d.node? x).map fun n => if n.id = id then f n else n := by
  simp only [node?, modify, List.find?_map]
  congr 2
  funext n
  by_cases h : n.id = id <;> simp [h, hf]

theorem node?_without (d : Diagram α) {id x : String} (hx : x ≠ id) :
    (d.without id).node? x = d.node? x := by
  simp only [node?, without, List.find?_filter]
  congr 1
  funext n
  by_cases h : n.id = x <;> simp [h, hx]

theorem node?_without_self (d : Diagram α) (id : String) : (d.without id).node? id = none := by
  rw [node?_eq_none_iff, isLive_eq_false_iff, ids_without]
  simp

theorem node?_flipped (d : Diagram α) (source target x : String) :
    (d.flipped source target).node? x = d.node? x := by
  simp only [node?, nodes_flipped]

theorem node?_append (d : Diagram α) (n : Node α) (rest : List String) {x : String}
    (hx : x ∈ d.ids) :
    ({ d with nodes := d.nodes ++ [n], supply := rest } : Diagram α).node? x = d.node? x := by
  obtain ⟨m, hm⟩ := exists_node? (isLive_iff.2 hx)
  simp only [node?, List.find?_append] at hm ⊢
  rw [hm, Option.some_or]

/-! ## the operations -/

variable {d d' : Diagram α}

theorem remove_eq_ok_iff {id : String} {n : Node α} :
    d.remove id = .ok (n, d') ↔ d.node? id = some n ∧ d' = d.without id := by
  unfold remove
  cases d.node? id with
  | none => simp
  | some m => simp [without, eq_comm]

/-- Renaming, with its refusals in their order.  A node that keeps its id is no special case. -/
theorem rename_eq (d : Diagram α) (id new : String) :
    d.rename id new =
      if trimmed new = "" then .error .emptyId
      else if id ∉ d.ids then .error (.unknownNode id)
      else if trimmed new ∈ d.ids ∧ trimmed new ≠ id then .error (.duplicateId (trimmed new))
      else .ok (trimmed new, d.renamed id (trimmed new)) := by
  have hvalid : d.isValidId (trimmed new) id = true ↔
      trimmed new ≠ "" ∧ ¬ (trimmed new ∈ d.ids ∧ trimmed new ≠ id) := by
    rw [isValidId, isValidId_iff, trimmed_trimmed, not_and, not_not]
  unfold rename
  by_cases hempty : trimmed new = ""
  · rw [if_pos hempty, if_pos hempty]
  rw [if_neg hempty, if_neg hempty]
  by_cases hlive : id ∈ d.ids
  · rw [if_neg (by simp [isLive_iff.2 hlive]), if_neg (not_not.2 hlive)]
    by_cases hfree : trimmed new ∈ d.ids ∧ trimmed new ≠ id
    · rw [if_pos (by simpa [hempty] using mt hvalid.1 (fun h => h.2 hfree)), if_pos hfree]
    · rw [if_neg (by simpa using hvalid.2 ⟨hempty, hfree⟩), if_neg hfree]
      -- keeping the id is renaming to itself
      by_cases hself : trimmed new = id
      · rw [if_pos hself, hself, renamed_self]
      · rw [if_neg hself]
        rfl
  · rw [if_pos (by simp [isLive_eq_false_iff.2 hlive]), if_pos hlive]

theorem rename_eq_ok_iff {id new name : String} :
    d.rename id new = .ok (name, d') ↔
      name = trimmed new ∧ name ≠ "" ∧ id ∈ d.ids ∧ (name ∈ d.ids → name = id) ∧
        d' = d.renamed id name := by
  rw [rename_eq]
  constructor
  · intro h
    split_ifs at h with hempty hlive hfree
    obtain ⟨rfl, rfl⟩ : trimmed new = name ∧ d.renamed id (trimmed new) = d' := by simpa using h
    exact ⟨rfl, hempty, hlive, by simpa using hfree, rfl⟩
  · rintro ⟨rfl, hempty, hlive, hfree, rfl⟩
    rw [if_neg hempty, if_neg (not_not.2 hlive), if_neg (by simpa using hfree)]

theorem update_eq_ok {id name raw : String} {v : Param} (h : d.update id name raw = .ok (v, d')) :
    ∃ n, d.node? id = some n ∧ v = Param.coerce name raw (n.params.get? name) ∧
      d' = d.modify id fun n => { n with params := n.params.insert name v } := by
  unfold update at h
  split at h
  · next n hn =>
    obtain ⟨rfl, rfl⟩ : _ = v ∧ _ = d' := by simpa using h
    exact ⟨n, hn, rfl, rfl⟩
  · cases h

theorem setParam_eq_ok {id name : String} {v : Param} (h : d.setParam id name v = .ok d') :
    d.isLive id = true ∧ d' = d.modify id fun n => { n with params := n.params.insert name v } := by
  unfold setParam at h
  split_ifs at h with hlive
  exact ⟨hlive, (Except.ok.inj h).symm⟩

theorem toggle_eq_ok_iff {source target : String} {t : Toggle} :
    d.toggle source target = .ok (t, d') ↔
      source ≠ target ∧ source ∈ d.ids ∧ target ∈ d.ids ∧
        t = (if d.hasLink source target then .removed else .added) ∧
          d' = d.flipped source target := by
  simp only [← isLive_iff]
  unfold toggle flipped
  by_cases hself : source = target
  · simp [hself]
  by_cases hs : d.isLive source = true
  · by_cases ht : d.isLive target = true
    · by_cases hlink : d.hasLink source target = true <;> simp [hself, hs, ht, hlink, eq_comm]
    · simp [hself, hs, ht]
  · simp [hself, hs]

/-! ## changes -/

/-- The ways in which an edit can change a diagram.  The flag says that ids stay as they are. -/
inductive Change (d : Diagram α) : Bool → Diagram α → Prop where
  | kept {keeps : Bool} : Change d keeps d
  | added (n : Node α) (skipped rest : List String) (drawn : d.supply = skipped ++ n.id :: rest)
      (fresh : n.id ∉ d.ids) : Change d false { d with nodes := d.nodes ++ [n], supply := rest }
  | removed (id : String) : Change d false (d.without id)
  | renamed (id name : String) (proper : IsProperId name) (live : id ∈ d.ids)
      (free : name ∈ d.ids → name = id) : Change d false (d.renamed id name)
  | modified (id : String) (f : Node α → Node α) (keeps : ∀ n, (f n).id = n.id) :
      Change d true (d.modify id f)
  | flipped (source target : String) (distinct : source ≠ target) (source_live : source ∈ d.ids)
      (target_live : target ∈ d.ids) : Change d true (d.flipped source target)
  | cleared : Change d false d.clear

theorem Change.ids_eq (h : Change d true d') : d'.ids = d.ids := by
  cases h with
  | kept => rfl
  | modified id f keeps => exact ids_modify keeps
  | flipped source target _ _ _ => exact ids_flipped ..

theorem Change.supply_eq (h : Change d true d') : d'.supply = d.supply := by
  cases h with
  | kept => rfl
  | modified id f keeps => rfl
  | flipped source target _ _ _ => exact supply_flipped ..

theorem Change.of_draw {l : Layer} {p : Point α} {id : String} {rest : List String}
    (h : drawFresh d.ids d.supply = some (id, rest)) : Change d false
      { d with nodes := d.nodes ++ [⟨id, l, l.defaults, p, none⟩], supply := rest } := by
  obtain ⟨hfresh, skipped, hsupply, -⟩ := drawFresh_eq_some h
  exact .added _ skipped rest hsupply hfresh

/-! ## operations with coordinates -/

variable [Scalar α]

theorem add_eq_ok {l : Layer} {p : Point α} {n : Node α} (h : d.add l p = .ok (n, d')) :
    p.isFinite = true ∧ n = ⟨n.id, l, l.defaults, p, none⟩ ∧
      ∃ rest, drawFresh d.ids d.supply = some (n.id, rest) ∧
        d' = { d with nodes := d.nodes ++ [n], supply := rest } := by
  unfold add at h
  split at h
  · next hp =>
    split at h
    · next id rest hdraw =>
      obtain ⟨rfl, rfl⟩ : (⟨id, l, l.defaults, p, none⟩ : Node α) = n ∧ _ = d' := by simpa using h
      exact ⟨hp, rfl, rest, hdraw, rfl⟩
    · cases h
  · cases h

theorem addNamed_eq_ok {name : String} {p : Point α} {n : Node α}
    (h : d.addNamed name p = .ok (n, d')) :
    ∃ l, Layer.ofName? name = some l ∧ d.add l p = .ok (n, d') := by
  unfold addNamed at h
  split at h
  · next l hl => exact ⟨l, hl, h⟩
  · cases h

theorem setPosition_eq_ok_iff {id : String} {p : Point α} :
    d.setPosition id p = .ok d' ↔
      p.isFinite = true ∧ d.isLive id = true ∧ d' = d.modify id ({ · with position := p }) := by
  unfold setPosition
  by_cases hp : p.isFinite = true <;> by_cases hlive : d.isLive id = true <;>
    simp [hp, hlive, eq_comm]

theorem setWidth_eq_ok {id : String} {w : α} (h : d.setWidth id w = .ok d') :
    isWidth w = true ∧ d.isLive id = true ∧
      d' = d.modify id fun n => if n.width == some w then n else { n with width := some w } := by
  unfold setWidth at h
  split_ifs at h with hw hlive
  exact ⟨by simpa using hw, hlive, (Except.ok.inj h).symm⟩

/-! ## what an edit can do -/

/-- What an edit that is carried out makes of the diagram, and on which conditions. -/
inductive Effect (d : Diagram α) : Edit α → Diagram α → Prop where
  | add (l : Layer) (p : Point α) (id : String) (rest : List String) (finite : p.isFinite = true)
      (draw : drawFresh d.ids d.supply = some (id, rest)) :
      Effect d (.add l p)
        { d with nodes := d.nodes ++ [⟨id, l, l.defaults, p, none⟩], supply := rest }
  | addNamed (name : String) (l : Layer) (p : Point α) (id : String) (rest : List String)
      (isLayer : Layer.ofName? name = some l) (finite : p.isFinite = true)
      (draw : drawFresh d.ids d.supply = some (id, rest)) :
      Effect d (.addNamed name p)
        { d with nodes := d.nodes ++ [⟨id, l, l.defaults, p, none⟩], supply := rest }
  | remove (id : String) (live : id ∈ d.ids) : Effect d (.remove id) (d.without id)
  | rename (id new : String) (proper : IsProperId (trimmed new)) (live : id ∈ d.ids)
      (free : trimmed new ∈ d.ids → trimmed new = id) :
      Effect d (.rename id new) (d.renamed id (trimmed new))
  | update (id name raw : String) (n : Node α) (found : d.node? id = some n) :
      Effect d (.update id name raw) (d.modify id fun m =>
        { m with params := m.params.insert name (.coerce name raw (n.params.get? name)) })
  | setParam (id name : String) (v : Param) (live : id ∈ d.ids) :
      Effect d (.setParam id name v)
        (d.modify id fun m => { m with params := m.params.insert name v })
  | setPosition (id : String) (p : Point α) (finite : p.isFinite = true) (live : id ∈ d.ids) :
      Effect d (.setPosition id p) (d.modify id ({ · with position := p }))
  | setWidth (id : String) (w : α) (width : isWidth w = true) (live : id ∈ d.ids) :
      Effect d (.setWidth id w)
        (d.modify id fun m => if m.width == some w then m else { m with width := some w })
  | toggle (source target : String) (distinct : source ≠ target) (source_live : source ∈ d.ids)
      (target_live : target ∈ d.ids) : Effect d (.toggle source target) (d.flipped source target)
  | clear : Effect d .clear d.clear

theorem perform_effect {e : Edit α} {o : Outcome α} (h : d.perform e = .ok (o, d')) :
    Effect d e d' := by
  cases e with
  | add l p =>
    obtain ⟨⟨n, _⟩, hop, hres⟩ := map_eq_ok h
    cases hres
    obtain ⟨hp, hn, rest, hdraw, rfl⟩ := add_eq_ok hop
    rw [hn]
    exact .add l p n.id rest hp hdraw
  | addNamed name p =>
    obtain ⟨⟨n, _⟩, hop, hres⟩ := map_eq_ok h
    cases hres
    obtain ⟨l, hl, hadd⟩ := addNamed_eq_ok hop
    obtain ⟨hp, hn, rest, hdraw, rfl⟩ := add_eq_ok hadd
    rw [hn]
    exact .addNamed name l p n.id rest hl hp hdraw
  | remove id =>
    obtain ⟨⟨n, _⟩, hop, hres⟩ := map_eq_ok h
    cases hres
    obtain ⟨hn, rfl⟩ := remove_eq_ok_iff.1 hop
    exact .remove id (isLive_iff.1 (isLive_of_node? hn))
  | rename id new =>
    obtain ⟨⟨name, _⟩, hop, hres⟩ := map_eq_ok h
    cases hres
    obtain ⟨rfl, hne, hlive, hfree, rfl⟩ := rename_eq_ok_iff.1 hop
    exact .rename id new (isProperId_trimmed hne) hlive hfree
  | update id name raw =>
    obtain ⟨⟨v, _⟩, hop, hres⟩ := map_eq_ok h
    cases hres
    obtain ⟨n, hn, rfl, rfl⟩ := update_eq_ok hop
    exact .update id name raw n hn
  | setParam id name v =>
    obtain ⟨_, hop, hres⟩ := map_eq_ok h
    cases hres
    obtain ⟨hlive, rfl⟩ := setParam_eq_ok hop
    exact .setParam id name v (isLive_iff.1 hlive)
  | setPosition id p =>
    obtain ⟨_, hop, hres⟩ := map_eq_ok h
    cases hres
    obtain ⟨hp, hlive, rfl⟩ := setPosition_eq_ok_iff.1 hop
    exact .setPosition id p hp (isLive_iff.1 hlive)
  | setWidth id w =>
    obtain ⟨_, hop, hres⟩ := map_eq_ok h
    cases hres
    obtain ⟨hw, hlive, rfl⟩ := setWidth_eq_ok hop
    exact .setWidth id w hw (isLive_iff.1 hlive)
  | toggle source target =>
    obtain ⟨⟨t, _⟩, hop, hres⟩ := map_eq_ok h
    cases hres
    obtain ⟨hne, hs, ht, -, rfl⟩ := toggle_eq_ok_iff.1 hop
    exact .toggle source target hne hs ht
  | clear =>
    cases h
    exact .clear

theorem step_of_ok {e : Edit α} {o : Outcome α} (h : d.perform e = .ok (o, d')) :
    d.step e = d' := by
  rw [step, h]

theorem step_of_error {e : Edit α} {x : Refusal α} (h : d.perform e = .error x) : d.step e = d := by
  rw [step, h]

theorem step_effect (d : Diagram α) (e : Edit α) : d.step e = d ∨ Effect d e (d.step e) := by
  cases hop : d.perform e with
  | error x => exact .inl (step_of_error hop)
  | ok r =>
    rw [step_of_ok hop]
    exact .inr (perform_effect hop)

theorem Effect.change {e : Edit α} (h : Effect d e d') : Change d e.keepsIds d' := by
  cases h with
  | add l p id rest finite draw => exact .of_draw draw
  | addNamed name l p id rest isLayer finite draw => exact .of_draw draw
  | remove id live => exact .removed id
  | rename id new proper live free => exact .renamed id _ proper live free
  | update id name raw n found => exact .modified id _ fun _ => rfl
  | setParam id name v live => exact .modified id _ fun _ => rfl
  | setPosition id p finite live => exact .modified id _ fun _ => rfl
  | setWidth id w width live => exact .modified id _ fun n => by split <;> rfl
  | toggle source target distinct source_live target_live =>
    exact .flipped source target distinct source_live target_live
  | clear => exact .cleared

theorem step_change (d : Diagram α) (e : Edit α) : Change d e.keepsIds (d.step e) := by
  rcases step_effect d e with h | h
  · rw [h]
    exact .kept
  · exact h.change

/-- The nodes that an edit may leave behind, unless it sets a parameter: those that were there, with
another value in one of their fields at most, and a new one. -/
inductive Yields (d : Diagram α) : Node α → Prop where
  | kept (n : Node α) (old : n ∈ d.nodes) : Yields d n
  | added (l : Layer) (p : Point α) (id : String) (drawn : id ∈ d.supply)
      (finite : p.isFinite = true) : Yields d ⟨id, l, l.defaults, p, none⟩
  | renamed (n : Node α) (old : n ∈ d.nodes) (name : String) (proper : IsProperId name) :
      Yields d { n with id := name }
  | typed (n : Node α) (old : n ∈ d.nodes) (name raw : String) (current : Option Param) :
      Yields d { n with params := n.params.insert name (.coerce name raw current) }
  | placed (n : Node α) (old : n ∈ d.nodes) (p : Point α) (finite : p.isFinite = true) :
      Yields d { n with position := p }
  | measured (n : Node α) (old : n ∈ d.nodes) (w : α) (width : isWidth w = true) :
      Yields d { n with width := some w }

theorem yields_of_mem_modify {id : String} {f : Node α → Node α}
    (hf : ∀ m ∈ d.nodes, d.Yields (f m)) : ∀ n ∈ (d.modify id f).nodes, d.Yields n := by
  intro n hn
  obtain ⟨m, hm, rfl⟩ := List.mem_map.1 hn
  split
  · exact hf m hm
  · exact .kept m hm

theorem yields_of_mem_append {l : Layer} {p : Point α} {id : String} {rest : List String}
    (hp : p.isFinite = true) (h : drawFresh d.ids d.supply = some (id, rest)) :
    ∀ n ∈ d.nodes ++ [⟨id, l, l.defaults, p, none⟩], d.Yields n := by
  obtain ⟨-, skipped, hsupply, -⟩ := drawFresh_eq_some h
  intro n hn
  rcases List.mem_append.1 hn with hn | hn
  · exact .kept n hn
  · rw [List.mem_singleton.1 hn]
    exact .added l p id (by simp [hsupply]) hp

theorem Effect.yields {e : Edit α} (h : Effect d e d') (he : e.setsParam = false) :
    ∀ n ∈ d'.nodes, d.Yields n := by
  cases h with
  | add l p id rest finite draw => exact yields_of_mem_append finite draw
  | addNamed name l p id rest isLayer finite draw => exact yields_of_mem_append finite draw
  | remove id live => exact fun n hn => .kept n (List.mem_filter.1 hn).1
  | rename id new proper live free =>
    exact yields_of_mem_modify fun n hn => .renamed n hn _ proper
  | update id name raw m found => exact yields_of_mem_modify fun n hn => .typed n hn name raw _
  | setParam id name v live => cases he
  | setPosition id p finite live => exact yields_of_mem_modify fun n hn => .placed n hn p finite
  | setWidth id w width live =>
    refine yields_of_mem_modify fun n hn => ?_
    split
    · exact .kept n hn
    · exact .measured n hn w width
  | toggle source target distinct source_live target_live =>
    rw [nodes_flipped]
    exact Yields.kept
  | clear => exact fun n hn => by cases hn

theorem yields_of_mem_step {e : Edit α} (he : e.setsParam = false) {n : Node α}
    (hn : n ∈ (d.step e).nodes) : d.Yields n := by
  rcases step_effect d e with h | h
  · rw [h] at hn
    exact .kept n hn
  · exact h.yields he n hn

theorem ids_step_of_keepsIds {e : Edit α} (he : e.keepsIds = true) : (d.step e).ids = d.ids := by
  have hchange := step_change d e
  rw [he] at hchange
  exact hchange.ids_eq

theorem ids_subset_step_add (d : Diagram α) (l : Layer) (p : Point α) :
    ∀ id ∈ d.ids, id ∈ (d.step (.add l p)).ids := by
  intro id hid
  rcases step_effect d (.add l p) with h | h
  · rwa [h]
  · generalize d.step (.add l p) = d' at h
    cases h with
    | add l p new rest finite draw =>
      obtain ⟨m, hm, rfl⟩ := mem_ids.1 hid
      exact mem_ids.2 ⟨m, List.mem_append_left _ hm, rfl⟩

/-- Unless it renames, an edit takes ids away, or appends one that it draws from the supply, or
leaves them as they are. -/
theorem ids_step_of_not_renames {e : Edit α} (he : e.renames = false) :
    (∃ keep : String → Bool, (d.step e).ids = d.ids.filter keep ∧ (d.step e).supply = d.supply) ∨
      ∃ id skipped, d.supply = skipped ++ id :: (d.step e).supply ∧
        (d.step e).ids = d.ids ++ [id] := by
  have hall : d.ids.filter (fun _ => true) = d.ids := List.filter_true ..
  rcases step_effect d e with h | h
  · rw [h]
    exact .inl ⟨fun _ => true, hall.symm, rfl⟩
  generalize d.step e = d' at h
  have hchange := h.change
  cases h with
  | rename => cases he
  | add l p id rest finite draw =>
    obtain ⟨-, skipped, hsupply, -⟩ := drawFresh_eq_some draw
    exact .inr ⟨id, skipped, hsupply, ids_append ..⟩
  | addNamed name l p id rest isLayer finite draw =>
    obtain ⟨-, skipped, hsupply, -⟩ := drawFresh_eq_some draw
    exact .inr ⟨id, skipped, hsupply, ids_append ..⟩
  | remove id live => exact .inl ⟨_, ids_without d id, rfl⟩
  | clear => exact .inl ⟨fun _ => false, by simp [clear, ids], rfl⟩
  | _ => exact .inl ⟨fun _ => true, by rw [hchange.ids_eq, hall], hchange.supply_eq⟩

end Diagram

end Wireboard
