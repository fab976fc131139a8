import Wireboard.Proofs.Diagram.Operations

/-!
# Edits in place

The edits as programs that work on the one diagram there is: they check, look things up and write,
step by step, and when such a program is refused, what it has written before stays written.

* `Edit.inPlace`: the program of an edit;
* `Diagram.settle`: what a program comes to that has not written anything when it is refused;
* `Edit.inPlace_run`: where no two nodes share an id, the program of an edit settles on what
  `Diagram.perform` gives.
-/

set_option linter.unusedSectionVars false

namespace Wireboard

/-- A program that works on a diagram in place and may be refused on the way.  Nothing is undone. -/
abbrev InPlace (α β : Type) := EStateM (Refusal α) (Diagram α) β

namespace InPlace

variable {α β γ : Type}

/-! ## the programs -/

/-- Goes on unless the condition holds. -/
def refuseIf (c : Prop) [Decidable c] (r : Refusal α) : InPlace α Unit :=
  if c then throw r else pure ()

/-- Goes on with what there is. -/
def orRefuse (r : Refusal α) : Option β → InPlace α β
  | some b => pure b
  | none => throw r

/-- Looks a node up. -/
def node (id : String) : InPlace α (Node α) := do
  let d ← get
  orRefuse (.unknownNode id) (d.node? id)

/-- Changes the first node with the id. -/
def writeNode (id : String) (f : Node α → Node α) : InPlace α Unit :=
  modify fun d => { d with nodes := d.nodes.modify (d.nodes.findIdx (·.id == id)) f }

def writeNodes (f : List (Node α) → List (Node α)) : InPlace α Unit :=
  modify fun d => { d with nodes := f d.nodes }

def writeLinks (f : List Link → List Link) : InPlace α Unit :=
  modify fun d => { d with links := f d.links }

/-- Takes an id that is not in use from the supply. -/
def draw : InPlace α String := do
  let d ← get
  let (id, supply) ← orRefuse .noFreshId (drawFresh d.ids d.supply)
  modify fun d => { d with supply }
  pure id

variable [Scalar α]

def add (layer : Layer) (p : Point α) : InPlace α (Node α) := do
  refuseIf (!p.isFinite) (.badPosition p)
  let id ← draw
  let n : Node α := ⟨id, layer, layer.defaults, p, none⟩
  writeNodes (· ++ [n])
  pure n

def addNamed (name : String) (p : Point α) : InPlace α (Node α) := do
  let layer ← orRefuse (.unknownLayer (trimmed name)) (Layer.ofName? name)
  add layer p

def remove (id : String) : InPlace α (Node α) := do
  let n ← node id
  writeNodes fun nodes => nodes.eraseIdx (nodes.findIdx (·.id == id))
  writeLinks fun links => links.filter (!·.touches id)
  pure n

def rename (id new : String) : InPlace α String := do
  let name := trimmed new
  refuseIf (name = "") .emptyId
  let d ← get
  refuseIf (!d.isLive id) (.unknownNode id)
  refuseIf (!d.isValidId name id) (.duplicateId name)
  if name = id then pure name
  else do
    let _ ← node id
    writeNode id ({ · with id := name })
    writeLinks fun links => links.map (·.rename id name)
    pure name

def update (id name raw : String) : InPlace α Param := do
  let n ← node id
  let v := Param.coerce name raw (n.params.get? name)
  writeNode id fun n => { n with params := n.params.insert name v }
  pure v

def setParam (id name : String) (v : Param) : InPlace α Unit := do
  let _ ← node id
  writeNode id fun n => { n with params := n.params.insert name v }

def setPosition (id : String) (p : Point α) : InPlace α Unit := do
  refuseIf (!p.isFinite) (.badPosition p)
  let _ ← node id
  writeNode id ({ · with position := p })

def setWidth (id : String) (w : α) : InPlace α Unit := do
  refuseIf (!Diagram.isWidth w) (.badWidth w)
  let n ← node id
  if n.width == some w then pure () else writeNode id ({ · with width := some w })

def toggle (source target : String) : InPlace α Toggle := do
  refuseIf (source = target) (.selfLink source)
  let d ← get
  refuseIf (!d.isLive source) (.unknownNode source)
  refuseIf (!d.isLive target) (.unknownNode target)
  if d.hasLink source target then do
    writeLinks (·.erase ⟨source, target⟩)
    pure .removed
  else do
    writeLinks (· ++ [⟨source, target⟩])
    pure .added

def clear : InPlace α Unit := do
  writeNodes fun _ => []
  writeLinks fun _ => []

end InPlace

/-- The program of an edit. -/
def Edit.inPlace {α : Type} [Scalar α] : Edit α → InPlace α (Outcome α)
  | .add layer p => .node <$> InPlace.add layer p
  | .addNamed name p => .node <$> InPlace.addNamed name p
  | .remove id => .node <$> InPlace.remove id
  | .rename id new => .id <$> InPlace.rename id new
  | .update id name raw => .param <$> InPlace.update id name raw
  | .setParam id name v => (fun _ => .done) <$> InPlace.setParam id name v
  | .setPosition id p => (fun _ => .done) <$> InPlace.setPosition id p
  | .setWidth id w => (fun _ => .done) <$> InPlace.setWidth id w
  | .toggle source target => .toggled <$> InPlace.toggle source target
  | .clear => (fun _ => .done) <$> InPlace.clear

/-- What a program comes to that writes nothing unless it succeeds. -/
def Diagram.settle {α β : Type} (d : Diagram α) :
    Except (Refusal α) (β × Diagram α) → EStateM.Result (Refusal α) (Diagram α) β
  | .ok (b, d') => .ok b d'
  | .error r => .error r d

namespace InPlace

variable {α β γ : Type} {d : Diagram α}

/-! ## one step at a time -/

section
variable {p : InPlace α β} {f : β → InPlace α γ} {b : β} {d' : Diagram α} {r : Refusal α}
  {x : Except (Refusal α) (β × Diagram α)}

theorem run_bind_ok (h : p.run d = .ok b d') : (p >>= f).run d = (f b).run d' := by
  change p d = _ at h
  change EStateM.bind p f d = _
  unfold EStateM.bind
  rw [h]
  rfl

theorem run_bind_error (h : p.run d = .error r d') : (p >>= f).run d = .error r d' := by
  change p d = _ at h
  change EStateM.bind p f d = _
  unfold EStateM.bind
  rw [h]

theorem run_map (g : β → γ) (h : p.run d = d.settle x) :
    (g <$> p).run d = d.settle (x.map fun (b, d) => (g b, d)) := by
  change p d = _ at h
  change EStateM.map g p d = _
  unfold EStateM.map
  rw [h]
  rcases x with r | ⟨b, d'⟩ <;> rfl

theorem run_get_bind (f : Diagram α → InPlace α γ) : (get >>= f).run d = (f d).run d := rfl

theorem run_refuseIf_bind {c : Prop} [Decidable c] {f : Unit → InPlace α β}
    (h : ¬ c → (f ()).run d = d.settle x) :
    (refuseIf c r >>= f).run d = d.settle (if c then .error r else x) := by
  unfold refuseIf
  by_cases hc : c
  · rw [if_pos hc, if_pos hc]
    rfl
  · rw [if_neg hc, if_neg hc]
    exact h hc

theorem run_node_some {id : String} {n : Node α} (h : d.node? id = some n) :
    (node id).run d = .ok n d := by
  change (orRefuse (.unknownNode id) (d.node? id)).run d = _
  rw [h]
  rfl

theorem run_node_none {id : String} (h : d.node? id = none) :
    (node id).run d = .error (.unknownNode id) d := by
  change (orRefuse (.unknownNode id) (d.node? id)).run d = _
  rw [h]
  rfl

theorem run_node_bind {id : String} {f : Node α → InPlace α β}
    {x : Node α → Except (Refusal α) (β × Diagram α)}
    (h : ∀ n, d.node? id = some n → (f n).run d = d.settle (x n)) :
    (node id >>= f).run d = d.settle (match d.node? id with
      | some n => x n
      | none => .error (.unknownNode id)) := by
  cases hn : d.node? id with
  | none =>
    rw [run_bind_error (run_node_none hn)]
    rfl
  | some n =>
    rw [run_bind_ok (run_node_some hn)]
    exact h n hn

/-- A node that is looked up just to see that it is there. -/
theorem run_node_bind_of_live {id : String} {f : Node α → InPlace α β}
    (h : ∀ n, d.node? id = some n → (f n).run d = d.settle x) :
    (node id >>= f).run d =
      d.settle (if d.isLive id then x else .error (.unknownNode id)) := by
  rw [run_node_bind h]
  cases hn : d.node? id with
  | none => rw [Diagram.node?_eq_none_iff.1 hn, if_neg Bool.false_ne_true]
  | some n => rw [if_pos (Diagram.isLive_of_node? hn)]

theorem run_draw_bind {f : String → InPlace α β}
    {x : String → List String → Except (Refusal α) (β × Diagram α)}
    (h : ∀ id supply, (f id).run { d with supply } = d.settle (x id supply)) :
    (draw >>= f).run d = d.settle (match drawFresh d.ids d.supply with
      | some (id, supply) => x id supply
      | none => .error .noFreshId) := by
  cases hdraw : drawFresh d.ids d.supply with
  | none =>
    have hrun : draw.run d = .error .noFreshId d := by
      change (orRefuse .noFreshId (drawFresh d.ids d.supply) >>= _).run d = _
      rw [hdraw]
      rfl
    rw [run_bind_error hrun]
    rfl
  | some drawn =>
    obtain ⟨id, supply⟩ := drawn
    have hrun : draw.run d = .ok id { d with supply } := by
      change (orRefuse .noFreshId (drawFresh d.ids d.supply) >>= _).run d = _
      rw [hdraw]
      rfl
    rw [run_bind_ok hrun]
    exact h id supply

end

/-! ## the first node with an id -/

theorem modify_findIdx {nodes : List (Node α)} (h : (nodes.map (·.id)).Nodup) (id : String)
    (f : Node α → Node α) :
    nodes.modify (nodes.findIdx (·.id == id)) f = nodes.map fun n => if n.id = id then f n else n := by
  induction nodes with
  | nil => rfl
  | cons n nodes ih =>
    rw [List.map_cons, List.nodup_cons] at h
    by_cases hn : n.id = id
    · have hrest : nodes.map (fun m => if m.id = id then f m else m) = nodes := by
        conv_rhs => rw [← List.map_id nodes]
        refine List.map_congr_left fun m hm => ?_
        have hne : m.id ≠ id := fun he => h.1 (List.mem_map.2 ⟨m, hm, he.trans hn.symm⟩)
        rw [if_neg hne, id_eq]
      simp [List.findIdx_cons, hn, hrest]
    · have hfalse : (n.id == id) = false := by simpa using hn
      simp [List.findIdx_cons, hn, hfalse, ih h.2]

theorem eraseIdx_findIdx {nodes : List (Node α)} (h : (nodes.map (·.id)).Nodup) (id : String) :
    nodes.eraseIdx (nodes.findIdx (·.id == id)) = nodes.filter (·.id != id) := by
  induction nodes with
  | nil => rfl
  | cons n nodes ih =>
    rw [List.map_cons, List.nodup_cons] at h
    by_cases hn : n.id = id
    · have hrest : nodes.filter (·.id != id) = nodes := by
        rw [List.filter_eq_self]
        intro m hm
        rw [bne_iff_ne]
        exact fun he => h.1 (List.mem_map.2 ⟨m, hm, he.trans hn.symm⟩)
      simp [List.findIdx_cons, hn, hrest]
    · have hfalse : (n.id == id) = false := by simpa using hn
      simp [List.findIdx_cons, hn, hfalse, ih h.2]

theorem run_writeNode (h : d.ids.Nodup) (id : String) (f : Node α → Node α) :
    (writeNode id f).run d = .ok () (d.modify id f) := by
  rw [Diagram.modify, ← modify_findIdx h]
  rfl

/-! ## the programs do what the operations do -/

variable [Scalar α]

theorem run_add (layer : Layer) (p : Point α) :
    (add layer p).run d = d.settle (d.add layer p) := by
  have hadd : d.add layer p = if (!p.isFinite) = true then .error (.badPosition p)
      else match drawFresh d.ids d.supply with
        | some (id, supply) =>
          let n : Node α := ⟨id, layer, layer.defaults, p, none⟩
          .ok (n, { d with nodes := d.nodes ++ [n], supply })
        | none => .error .noFreshId := by
    unfold Diagram.add
    cases p.isFinite <;> rfl
  rw [hadd]
  exact run_refuseIf_bind fun _ => run_draw_bind fun _ _ => rfl

theorem run_addNamed (name : String) (p : Point α) :
    (addNamed name p).run d = d.settle (d.addNamed name p) := by
  unfold addNamed Diagram.addNamed
  cases Layer.ofName? name with
  | none => rfl
  | some layer => exact run_add layer p

theorem run_remove (h : d.ids.Nodup) (id : String) :
    (remove id).run d = d.settle (d.remove id) := by
  refine run_node_bind fun n _ => ?_
  rw [← eraseIdx_findIdx h]
  rfl

theorem run_rename (h : d.ids.Nodup) (id new : String) :
    (rename id new).run d = d.settle (d.rename id new) := by
  refine run_refuseIf_bind fun _ => ?_
  rw [run_get_bind]
  refine run_refuseIf_bind fun hlive => run_refuseIf_bind fun _ => ?_
  by_cases hsame : trimmed new = id
  · rw [if_pos hsame, if_pos hsame]
    rfl
  · obtain ⟨n, hn⟩ := Diagram.exists_node? (by simpa using hlive)
    rw [if_neg hsame, if_neg hsame, run_bind_ok (run_node_some hn), run_bind_ok (run_writeNode h ..)]
    rfl

theorem run_update (h : d.ids.Nodup) (id name raw : String) :
    (update id name raw).run d = d.settle (d.update id name raw) :=
  run_node_bind fun _ _ => run_bind_ok (run_writeNode h ..)

/-- A change of one node, for which there is no answer. -/
theorem run_node_writeNode (h : d.ids.Nodup) (id : String) (f : Node α → Node α) :
    (do let _ ← node id; writeNode id f).run d =
      d.settle (if d.isLive id then .ok ((), d.modify id f) else .error (.unknownNode id)) :=
  run_node_bind_of_live fun _ _ => run_writeNode h id f

theorem run_setParam (h : d.ids.Nodup) (id name : String) (v : Param) :
    (setParam id name v).run d = d.settle ((d.setParam id name v).map ((), ·)) := by
  rw [Diagram.setParam, apply_ite (Except.map _)]
  exact run_node_writeNode h id _

theorem run_setPosition (h : d.ids.Nodup) (id : String) (p : Point α) :
    (setPosition id p).run d = d.settle ((d.setPosition id p).map ((), ·)) := by
  rw [Diagram.setPosition, apply_ite (Except.map _), apply_ite (Except.map _)]
  exact run_refuseIf_bind fun _ => run_node_writeNode h id _

theorem run_setWidth (h : d.ids.Nodup) (id : String) (w : α) :
    (setWidth id w).run d = d.settle ((d.setWidth id w).map ((), ·)) := by
  rw [Diagram.setWidth, apply_ite (Except.map _), apply_ite (Except.map _)]
  refine run_refuseIf_bind fun _ => run_node_bind_of_live fun n hn => ?_
  -- the node that is looked up is the only one with the id
  have honly : ∀ m ∈ d.nodes, m.id = id → m = n := by
    intro m hm hid
    have hfound := Diagram.node?_of_mem h hm
    rw [hid, hn] at hfound
    exact (Option.some.inj hfound).symm
  by_cases hsame : (n.width == some w) = true
  · rw [if_pos hsame, Diagram.modify_eq_self]
    · rfl
    · intro m hm hid
      rw [honly m hm hid, if_pos hsame]
  · have hwrite : (d.modify id fun m => if m.width == some w then m else { m with width := some w }) =
        d.modify id ({ · with width := some w }) := by
      refine Diagram.modify_congr fun m hm hid => ?_
      rw [honly m hm hid, if_neg hsame]
    rw [if_neg hsame, run_writeNode h, hwrite]
    rfl

theorem run_toggle (source target : String) :
    (toggle source target).run d = d.settle (d.toggle source target) := by
  refine run_refuseIf_bind fun _ => ?_
  rw [run_get_bind]
  refine run_refuseIf_bind fun _ => run_refuseIf_bind fun _ => ?_
  split <;> rfl

end InPlace

/-- **In place or not.**  Where no two nodes share an id, the program of an edit leaves the diagram
that the edit makes and answers the same; and when it is refused, the diagram is what it was. -/
theorem Edit.inPlace_run {α : Type} [Scalar α] {d : Diagram α} (h : d.ids.Nodup) (e : Edit α) :
    e.inPlace.run d = d.settle (d.perform e) := by
  cases e with
  | add layer p => exact InPlace.run_map _ (InPlace.run_add layer p)
  | addNamed name p => exact InPlace.run_map _ (InPlace.run_addNamed name p)
  | remove id => exact InPlace.run_map _ (InPlace.run_remove h id)
  | rename id new => exact InPlace.run_map _ (InPlace.run_rename h id new)
  | update id name raw => exact InPlace.run_map _ (InPlace.run_update h id name raw)
  | setParam id name v =>
    refine (InPlace.run_map _ (InPlace.run_setParam h id name v)).trans ?_
    rw [Diagram.perform]
    cases d.setParam id name v <;> rfl
  | setPosition id p =>
    refine (InPlace.run_map _ (InPlace.run_setPosition h id p)).trans ?_
    rw [Diagram.perform]
    cases d.setPosition id p <;> rfl
  | setWidth id w =>
    refine (InPlace.run_map _ (InPlace.run_setWidth h id w)).trans ?_
    rw [Diagram.perform]
    cases d.setWidth id w <;> rfl
  | toggle source target => exact InPlace.run_map _ (InPlace.run_toggle source target)
  | clear => rfl

end Wireboard
