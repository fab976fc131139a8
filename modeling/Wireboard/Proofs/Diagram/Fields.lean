import Wireboard.Proofs.Diagram.Sound
import Wireboard.Proofs.Params

/-!
# Fields of nodes

A parameter, the position or the width of a node is set by an edit that says which node and which of
these it is for.  Such an edit sees nothing of the diagram but which nodes there are and what is in that
field, and leaves all else as it is.

* `Write`, `Assignment`: what is to be set, and at which node; `Diagram.perform_edit`: what becomes of it.
* `Diagram.answer_congr`, `Diagram.content_step_congr`, `Diagram.content_step_of_ne`: what an assignment
  sees and what it changes.
* `Diagram.run_filter`: what a run leaves in a field and answers about it is known from the assignments
  to that field.
* `Diagram.eq_of_content`: a diagram is known by its fields, besides what no assignment changes.
* `Diagram.run_interleaved`: so assignments to different fields can be made in any order.
-/

set_option linter.unusedSectionVars false

namespace Wireboard

/-- A part of a node that is set by itself. -/
inductive Field where
  | param (name : String)
  | position
  | width
  deriving DecidableEq

/-- What is in a field; there may be no parameter of the name, and no width. -/
inductive Content (α : Type) where
  | param (v : Option Param)
  | position (p : Point α)
  | width (w : Option α)

/-- What the node has in a field. -/
def Node.read {α : Type} (n : Node α) : Field → Content α
  | .param name => .param (n.params.get? name)
  | .position => .position n.position
  | .width => .width n.width

theorem Node.eq_of_read {α : Type} {n n' : Node α} (hid : n.id = n'.id) (hlayer : n.layer = n'.layer)
    (h : ∀ f, n.read f = n'.read f) : n = n' := by
  obtain ⟨id, layer, params, position, width⟩ := n
  obtain ⟨id', layer', params', position', width'⟩ := n'
  obtain rfl : params = params' := Params.eq_of_get? fun name => Content.param.inj (h (.param name))
  obtain rfl : position = position' := Content.position.inj (h .position)
  obtain rfl : width = width' := Content.width.inj (h .width)
  obtain rfl : id = id' := hid
  obtain rfl : layer = layer' := hlayer
  rfl

/-! ## one node -/

/-- Something to be set at a node: a parameter by a text that is typed or by a value, the position, or
the width. -/
inductive Write (α : Type) where
  | typed (name raw : String)
  | value (name : String) (v : Param)
  | position (p : Point α)
  | width (w : α)
  deriving DecidableEq

namespace Write

variable {α : Type} [Scalar α]

/-- The field that is set. -/
def field : Write α → Field
  | typed name _ => .param name
  | value name _ => .param name
  | position _ => .position
  | width _ => .width

/-- The edit that sets it at a node. -/
def edit (id : String) : Write α → Edit α
  | typed name raw => .update id name raw
  | value name v => .setParam id name v
  | position p => .setPosition id p
  | width w => .setWidth id w

/-- What speaks against setting this at any node. -/
def misfit? : Write α → Option (Refusal α)
  | position p => if p.isFinite then none else some (.badPosition p)
  | width w => if Diagram.isWidth w then none else some (.badWidth w)
  | _ => none

/-- The node with it set. -/
def amend (n : Node α) : Write α → Node α
  | typed name raw =>
    { n with params := n.params.insert name (.coerce name raw (n.params.get? name)) }
  | value name v => { n with params := n.params.insert name v }
  | position p => { n with position := p }
  | width w => if n.width == some w then n else { n with width := some w }

/-- What is answered when it is set. -/
def reply (n : Node α) : Write α → Outcome α
  | typed name raw => .param (.coerce name raw (n.params.get? name))
  | _ => .done

@[simp] theorem id_amend (w : Write α) (n : Node α) : (w.amend n).id = n.id := by
  cases w with
  | width w => rw [amend]; split <;> rfl
  | _ => rfl

@[simp] theorem layer_amend (w : Write α) (n : Node α) : (w.amend n).layer = n.layer := by
  cases w with
  | width w => rw [amend]; split <;> rfl
  | _ => rfl

variable {w : Write α} {n n' : Node α}

/-- The answer depends on the field that is set only. -/
theorem reply_congr (h : n.read w.field = n'.read w.field) : w.reply n = w.reply n' := by
  cases w with
  | typed name raw => rw [reply, reply, Content.param.inj h]
  | _ => rfl

/-- What is in the field then depends on what is in it now only. -/
theorem read_amend_congr (h : n.read w.field = n'.read w.field) :
    (w.amend n).read w.field = (w.amend n').read w.field := by
  cases w with
  | typed name raw => simp only [amend, field, Node.read, Params.get?_insert_self, Content.param.inj h]
  | value name v => simp only [amend, field, Node.read, Params.get?_insert_self]
  | position p => rfl
  | width w =>
    have hwidth : n.width = n'.width := Content.width.inj h
    simp only [amend, field, Node.read, hwidth]
    split
    · rw [hwidth]
    · rfl

/-- The other fields are as they were. -/
theorem read_amend_of_ne {f : Field} (h : w.field ≠ f) : (w.amend n).read f = n.read f := by
  cases w with
  | typed name raw =>
    cases f with
    | param x => exact congrArg _ (Params.get?_insert_of_ne _ (fun hx => h (congrArg Field.param hx)) _)
    | _ => rfl
  | value name v =>
    cases f with
    | param x => exact congrArg _ (Params.get?_insert_of_ne _ (fun hx => h (congrArg Field.param hx)) _)
    | _ => rfl
  | position p =>
    cases f with
    | position => exact absurd rfl h
    | _ => rfl
  | width w =>
    cases f with
    | width => exact absurd rfl h
    | _ => rw [amend]; split <;> rfl

end Write

/-! ## one assignment -/

/-- Something to be set, and the node at which. -/
structure Assignment (α : Type) where
  id : String
  write : Write α
  deriving DecidableEq

namespace Assignment

variable {α : Type} [Scalar α]

/-- The node and the field that it is for. -/
def address (a : Assignment α) : String × Field := (a.id, a.write.field)

/-- The edit that makes it. -/
def edit (a : Assignment α) : Edit α := a.write.edit a.id

/-- Runs need be compared at the addresses that occur in them only. -/
theorem filter_eq_iff {as as' : List (Assignment α)} :
    (∀ x, as.filter (·.address = x) = as'.filter (·.address = x)) ↔
      ∀ x ∈ (as ++ as').map (·.address), as.filter (·.address = x) = as'.filter (·.address = x) := by
  refine ⟨fun h x _ => h x, fun h x => ?_⟩
  by_cases hx : x ∈ (as ++ as').map (·.address)
  · exact h x hx
  · have hnone : ∀ {bs : List (Assignment α)}, (∀ b ∈ bs, b ∈ as ++ as') →
        bs.filter (·.address = x) = [] := by
      intro bs hbs
      rw [List.filter_eq_nil_iff]
      intro b hb hbx
      exact hx (List.mem_map.2 ⟨b, hbs b hb, by simpa using hbx⟩)
    rw [hnone fun b hb => List.mem_append_left as' hb, hnone fun b hb => List.mem_append_right as hb]

end Assignment

namespace Diagram

variable {α : Type} [Scalar α] {d d' : Diagram α}

/-- What is in a field of a node, if there is the node. -/
def content (d : Diagram α) (x : String × Field) : Option (Content α) :=
  (d.node? x.1).map (·.read x.2)

/-- What an assignment answers, or why it is refused. -/
def answer (d : Diagram α) (a : Assignment α) : Except (Refusal α) (Outcome α) :=
  (d.perform a.edit).map Prod.fst

/-- The diagram after assignments, one after the other. -/
def assign (d : Diagram α) (as : List (Assignment α)) : Diagram α := d.run (as.map (·.edit))

/-- The assignments with their answers. -/
def log (d : Diagram α) : List (Assignment α) → List (Assignment α × Except (Refusal α) (Outcome α))
  | [] => []
  | a :: as => (a, d.answer a) :: (d.step a.edit).log as

/-- What no assignment changes: the nodes with their layers, the links and the supply. -/
def bones (d : Diagram α) : List (String × Layer) × List Link × List String :=
  (d.nodes.map fun n => (n.id, n.layer), d.links, d.supply)

/-- What becomes of an assignment: what is to be set is checked before the node is looked up. -/
theorem perform_edit (hd : d.ids.Nodup) (a : Assignment α) :
    d.perform a.edit =
      match a.write.misfit? with
      | some r => .error r
      | none =>
        match d.node? a.id with
        | some n => .ok (a.write.reply n, d.modify a.id a.write.amend)
        | none => .error (.unknownNode a.id) := by
  obtain ⟨id, w⟩ := a
  simp only [Assignment.edit]
  cases w with
  | typed name raw =>
    simp only [Write.edit, Write.misfit?, perform, update]
    cases hn : d.node? id with
    | none => rfl
    | some n =>
      -- the value is made from the one node that bears the id
      have hmodify : (d.modify id fun m => { m with
            params := m.params.insert name (.coerce name raw (n.params.get? name)) }) =
          d.modify id (Write.typed name raw).amend := by
        refine modify_congr fun m hm hid => ?_
        have hm' := node?_of_mem hd hm
        rw [hid, hn, Option.some.injEq] at hm'
        rw [hm', Write.amend]
      rw [← hmodify]
      rfl
  | value name v =>
    simp only [Write.edit, Write.misfit?, perform, setParam, ← isSome_node?]
    cases d.node? id <;> rfl
  | position p =>
    simp only [Write.edit, Write.misfit?, perform, setPosition, ← isSome_node?]
    cases p.isFinite <;> cases d.node? id <;> rfl
  | width w =>
    simp only [Write.edit, Write.misfit?, perform, setWidth, ← isSome_node?]
    cases isWidth w <;> cases d.node? id <;> rfl

/-- An assignment changes its node and nothing else, if it changes anything. -/
theorem step_edit (hd : d.ids.Nodup) (a : Assignment α) :
    d.step a.edit = if a.write.misfit?.isNone then d.modify a.id a.write.amend else d := by
  rw [step, perform_edit hd]
  cases a.write.misfit? with
  | some r => rfl
  | none =>
    cases hn : d.node? a.id with
    | some n => rfl
    | none =>
      have hnone : ∀ n ∈ d.nodes, n.id = a.id → a.write.amend n = n := by
        intro n hmem hid
        rw [← hid, node?_of_mem hd hmem] at hn
        cases hn
      exact (modify_eq_self hnone).symm

theorem bones_step (hd : d.ids.Nodup) (a : Assignment α) : (d.step a.edit).bones = d.bones := by
  rw [step_edit hd]
  split
  · rw [bones, modify, List.map_map]
    refine congrArg (·, _) (List.map_congr_left fun n _ => ?_)
    by_cases h : n.id = a.id <;> simp [h]
  · rfl

theorem ids_eq_of_bones (h : d'.bones = d.bones) : d'.ids = d.ids := by
  have hids := congrArg (fun x => x.1.map Prod.fst) h
  simp only [bones, List.map_map] at hids
  exact hids

theorem ids_step (hd : d.ids.Nodup) (a : Assignment α) : (d.step a.edit).ids = d.ids :=
  ids_eq_of_bones (bones_step hd a)

theorem nodes_of_content_eq {x : String × Field} (h : d.content x = d'.content x) :
    (d.node? x.1 = none ∧ d'.node? x.1 = none) ∨
      ∃ n n', d.node? x.1 = some n ∧ d'.node? x.1 = some n' ∧ n.read x.2 = n'.read x.2 := by
  unfold content at h
  cases hn : d.node? x.1 with
  | none =>
    rw [hn, Option.map_none, eq_comm, Option.map_eq_none_iff] at h
    exact .inl ⟨rfl, h⟩
  | some n =>
    rw [hn, Option.map_some, eq_comm, Option.map_eq_some_iff] at h
    obtain ⟨n', hn', hread⟩ := h
    exact .inr ⟨n, n', rfl, hn', hread.symm⟩

/-- An answer depends on the field that is set only. -/
theorem answer_congr (hd : d.ids.Nodup) (hd' : d'.ids.Nodup) {a : Assignment α}
    (h : d.content a.address = d'.content a.address) : d.answer a = d'.answer a := by
  rw [answer, answer, perform_edit hd, perform_edit hd']
  cases a.write.misfit? with
  | some r => rfl
  | none =>
    rcases nodes_of_content_eq h with ⟨hn, hn'⟩ | ⟨n, n', hn, hn', hread⟩
    · rw [show d.node? a.id = none from hn, show d'.node? a.id = none from hn']
    · rw [show d.node? a.id = some n from hn, show d'.node? a.id = some n' from hn']
      exact congrArg Except.ok (Write.reply_congr hread)

theorem content_modify (d : Diagram α) (a : Assignment α) (x : String × Field) :
    (d.modify a.id a.write.amend).content x =
      (d.node? x.1).map fun n => (if x.1 = a.id then a.write.amend n else n).read x.2 := by
  rw [content, node?_modify d a.write.id_amend, Option.map_map]
  refine Option.map_congr fun n hn => ?_
  rw [Function.comp_apply, (node?_eq_some hn).2]

/-- What is in the field afterwards depends on what is in it before only. -/
theorem content_step_congr (hd : d.ids.Nodup) (hd' : d'.ids.Nodup) {a : Assignment α}
    (h : d.content a.address = d'.content a.address) :
    (d.step a.edit).content a.address = (d'.step a.edit).content a.address := by
  rw [step_edit hd, step_edit hd']
  split
  · rw [content_modify, content_modify]
    simp only [if_pos (show a.address.1 = a.id from rfl)]
    rcases nodes_of_content_eq h with ⟨hn, hn'⟩ | ⟨n, n', hn, hn', hread⟩
    · rw [hn, hn']
    · rw [hn, hn']
      exact congrArg some (Write.read_amend_congr hread)
  · exact h

/-- The other fields, of this node and of others, are as they were. -/
theorem content_step_of_ne (hd : d.ids.Nodup) {a : Assignment α} {x : String × Field}
    (h : a.address ≠ x) : (d.step a.edit).content x = d.content x := by
  rw [step_edit hd]
  split
  · rw [content_modify]
    refine Option.map_congr fun n _ => ?_
    split
    · next hid => exact Write.read_amend_of_ne fun hfield => h (Prod.ext hid.symm hfield)
    · rfl
  · rfl

/-! ## runs -/

theorem bones_assign (hd : d.ids.Nodup) (as : List (Assignment α)) :
    (d.assign as).bones = d.bones := by
  induction as generalizing d with
  | nil => rfl
  | cons a as ih => exact (ih (ids_step hd a ▸ hd)).trans (bones_step hd a)

/-- What a run leaves in a field, and what it answers about it, is known from the assignments to that
field, and from what is in it at the beginning. -/
theorem run_filter (x : String × Field) (as : List (Assignment α)) :
    ∀ {d d' : Diagram α}, d.ids.Nodup → d'.ids.Nodup → d.content x = d'.content x →
      (d.assign as).content x = (d'.assign (as.filter (·.address = x))).content x ∧
        (d.log as).filter (·.1.address = x) = d'.log (as.filter (·.address = x)) := by
  induction as with
  | nil => exact fun _ _ h => ⟨h, rfl⟩
  | cons a as ih =>
    intro d d' hd hd' h
    have hnext : (d.step a.edit).ids.Nodup := ids_step hd a ▸ hd
    by_cases hx : a.address = x
    · subst hx
      have hnext' : (d'.step a.edit).ids.Nodup := ids_step hd' a ▸ hd'
      obtain ⟨hcontent, hlog⟩ := ih hnext hnext' (content_step_congr hd hd' h)
      rw [List.filter_cons_of_pos (by simp), log, log, List.filter_cons_of_pos (by simp), hlog,
        answer_congr hd hd' h]
      exact ⟨hcontent, rfl⟩
    · obtain ⟨hcontent, hlog⟩ := ih hnext hd' ((content_step_of_ne hd hx).trans h)
      rw [List.filter_cons_of_neg (by simpa using hx), log,
        List.filter_cons_of_neg (by simpa using hx)]
      exact ⟨hcontent, hlog⟩

/-- A diagram is known by what is in its fields, besides what no assignment changes. -/
theorem eq_of_content (hd : d.ids.Nodup) (hbones : d'.bones = d.bones)
    (h : ∀ x, d'.content x = d.content x) : d' = d := by
  obtain ⟨hnodes, hlinks, hsupply⟩ : _ ∧ d'.links = d.links ∧ d'.supply = d.supply := by
    simpa only [bones, Prod.mk.injEq] using hbones
  have hd' : d'.ids.Nodup := ids_eq_of_bones hbones ▸ hd
  suffices hsame : d'.nodes = d.nodes by
    cases d
    cases d'
    simp only at hsame hlinks hsupply
    rw [hsame, hlinks, hsupply]
  have hlength : d'.nodes.length = d.nodes.length := by
    simpa only [List.length_map] using congrArg List.length hnodes
  refine List.ext_getElem hlength fun i hi' hi => ?_
  have hi_eq : (d'.nodes[i].id, d'.nodes[i].layer) = (d.nodes[i].id, d.nodes[i].layer) := by
    have hget := List.getElem_of_eq hnodes (i := i) (by rwa [List.length_map])
    simpa only [List.getElem_map] using hget
  obtain ⟨hid, hlayer⟩ := Prod.mk.inj hi_eq
  refine Node.eq_of_read hid hlayer fun f => ?_
  have hcontent := h (d.nodes[i].id, f)
  rw [content, content, node?_of_mem hd (List.getElem_mem hi), ← hid,
    node?_of_mem hd' (List.getElem_mem hi')] at hcontent
  exact Option.some.inj hcontent

variable {supply : List String}

/-- **Assignments to different fields can be made in any order.**  If two runs make the same assignments
to each field of each node, in the same order there, then they end in the same diagram, and each
assignment is answered or refused alike in both, however the fields take turns. -/
theorem run_interleaved (h : Reached supply d) {as as' : List (Assignment α)}
    (hsame : ∀ x, as.filter (·.address = x) = as'.filter (·.address = x)) :
    d.assign as = d.assign as' ∧
      ∀ x, (d.log as).filter (·.1.address = x) = (d.log as').filter (·.1.address = x) := by
  have hd := h.sound.ids_nodup
  refine ⟨eq_of_content ?_ ?_ fun x => ?_, fun x => ?_⟩
  · rw [ids_eq_of_bones (bones_assign hd as')]
    exact hd
  · rw [bones_assign hd, bones_assign hd]
  · exact (run_filter x as hd hd rfl).1.trans (hsame x ▸ (run_filter x as' hd hd rfl).1.symm)
  · rw [(run_filter x as hd hd rfl).2, (run_filter x as' hd hd rfl).2, hsame x]

/-- New parameters are made in one order and in another; one is typed again after it was made, a width
and a node are wrong, and a width is set again. -/
theorem run_interleaved_bags :
    let d : Diagram Float32 := (empty ["a", "b"]).run [.add .linear ⟨0.0, 0.0⟩, .add .concat ⟨9.0, 9.0⟩]
    let as : List (Assignment Float32) := [⟨"a", .typed "y" "1"⟩, ⟨"a", .value "x" (.flag true)⟩,
      ⟨"b", .width (-1.0)⟩, ⟨"a", .typed "x" "false"⟩, ⟨"b", .position ⟨1.0, 2.0⟩⟩, ⟨"c", .width 5.0⟩,
      ⟨"b", .width 5.0⟩]
    let as' : List (Assignment Float32) := [⟨"b", .width (-1.0)⟩, ⟨"c", .width 5.0⟩, ⟨"b", .width 5.0⟩,
      ⟨"a", .value "x" (.flag true)⟩, ⟨"a", .typed "x" "false"⟩, ⟨"b", .position ⟨1.0, 2.0⟩⟩,
      ⟨"a", .typed "y" "1"⟩]
    d.assign as = d.assign as' ∧
      (d.log as).filter (·.1.address = ("b", .width)) =
        (d.log as').filter (·.1.address = ("b", .width)) := by
  intro d as as'
  have hreached : Reached ["a", "b"] d := reached_run _ _
  have hsame : ∀ x ∈ (as ++ as').map (·.address),
      as.filter (·.address = x) = as'.filter (·.address = x) := by
    decide +kernel
  obtain ⟨hrun, hlog⟩ := run_interleaved hreached (Assignment.filter_eq_iff.2 hsame)
  exact ⟨hrun, hlog _⟩

end Diagram

end Wireboard
