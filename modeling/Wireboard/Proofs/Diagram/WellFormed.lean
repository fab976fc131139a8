import Wireboard.Proofs.Diagram.Sound
import Wireboard.Proofs.Document.RoundTrip

/-!
# What nodes hold

Every way of putting something into a node checks it first, except for `setParam`.

* `Node.WellFormed`: a proper id, a finite position, a width that is one, names of parameters in
  order, and only finite numbers in parameters;
* `Diagram.wellFormed_step`: edits other than `setParam` keep all nodes well-formed;
* `Document.nullFree_toJson`: a document of such nodes is written without any `null`.
-/

set_option linter.unusedSectionVars false

namespace Wireboard

/-! ## parameters -/

namespace Reading

theorem isFinite_number? {cs : List Char} {x : Float} (h : number? cs = some x) :
    x.isFinite = true := by
  unfold number? at h
  split at h
  · split_ifs at h with hfinite
    exact Option.some.inj h ▸ hfinite
  · cases h

end Reading

/-- A typed text is never stored as anything but finite numbers. -/
theorem Param.isFinite_coerce {name raw : String} {current : Option Param} :
    ∀ x ∈ (coerce name raw current).numbers, x.isFinite = true := by
  intro x hx
  unfold coerce at hx
  split at hx
  · obtain ⟨cs, -, hcs⟩ := List.mem_filterMap.1 hx
    exact Reading.isFinite_number? hcs
  · split at hx
    · next y hy =>
      rw [List.mem_singleton.1 hx]
      exact Reading.isFinite_number? hy
    · split at hx <;> cases hx

theorem Params.mem_numbers_insert {ps : Params} {name : String} {v : Param} {x : Float}
    (h : x ∈ (ps.insert name v).numbers) : x ∈ v.numbers ∨ x ∈ ps.numbers := by
  obtain ⟨e, he, hx⟩ := List.mem_flatMap.1 h
  rcases mem_insertEntry he with rfl | he
  · exact .inl hx
  · exact .inr (List.mem_flatMap.2 ⟨e, he, hx⟩)

theorem Layer.isFinite_defaults (l : Layer) : ∀ x ∈ l.defaults.numbers, x.isFinite = true := by
  have hall : l.defaults.numbers.all (·.isFinite) = true := by cases l <;> decide +kernel
  exact List.all_eq_true.1 hall

/-! ## nodes -/

variable {α : Type} [Scalar α]

/-- A node as it can be drawn and handed to other programs. -/
structure Node.WellFormed (n : Node α) : Prop where
  id : IsProperId n.id
  position : n.position.isFinite = true
  width : ∀ w, n.width = some w → Scalar.isFinite w = true ∧ 0.0 ≤ w
  ascending : (n.params.entries.map (·.1)).Pairwise (· < ·)
  distinct : (n.params.entries.map (·.1)).Nodup
  numbers : ∀ x ∈ n.params.numbers, x.isFinite = true

namespace Diagram

variable {d : Diagram α}

theorem wellFormed_added {l : Layer} {p : Point α} {id : String} (hid : IsProperId id)
    (hp : p.isFinite = true) : Node.WellFormed ⟨id, l, l.defaults, p, none⟩ where
  id := hid
  position := hp
  width := by simp
  ascending := l.defaults.ascending_names
  distinct := l.defaults.nodup_names
  numbers := l.isFinite_defaults

/-- Unless it stores an unchecked value, an edit leaves well-formed nodes behind. -/
theorem wellFormed_step (h : ∀ n ∈ d.nodes, n.WellFormed) (hd : d.Proper) {e : Edit α}
    (he : e.setsParam = false) : ∀ n ∈ (d.step e).nodes, n.WellFormed := by
  intro n hn
  cases yields_of_mem_step he hn with
  | kept n old => exact h n old
  | added l p id drawn finite => exact wellFormed_added (hd.supply id drawn) finite
  | renamed n old name proper => exact { h n old with id := proper }
  | placed n old p finite => exact { h n old with position := finite }
  | measured n old w width =>
    refine { h n old with width := ?_ }
    intro x hx
    obtain rfl : w = x := Option.some.inj hx
    rw [isWidth, Bool.and_eq_true, decide_eq_true_iff] at width
    exact width
  | typed n old name raw current =>
    have hwf := h n old
    refine ⟨hwf.id, hwf.position, hwf.width, Params.ascending_names _, Params.nodup_names _, ?_⟩
    intro x hx
    rcases Params.mem_numbers_insert hx with hx | hx
    · exact Param.isFinite_coerce x hx
    · exact hwf.numbers x hx

end Diagram

/-! ## documents -/

namespace Json

/-- There is no `null` in the tree. -/
inductive NullFree : Json → Prop
  | bool (b : Bool) : NullFree (.bool b)
  | num (n : Literal) : NullFree (.num n)
  | str (s : Option String) : NullFree (.str s)
  | arr {vs : List Json} (h : ∀ v ∈ vs, NullFree v) : NullFree (.arr vs)
  | obj {ms : List (Option String × Json)} (h : ∀ m ∈ ms, NullFree m.2) : NullFree (.obj ms)

theorem nullFree_object {ms : List (String × Json)} (h : ∀ m ∈ ms, m.2.NullFree) :
    (object ms).NullFree := by
  refine .obj fun m hm => ?_
  obtain ⟨e, he, rfl⟩ := List.mem_map.1 hm
  exact h e he

end Json

theorem nullFree_singleJson {x : Float32} (h : x.isFinite = true) : (singleJson x).NullFree := by
  have hsome : (Layout.jsonSingle.single? x).isSome = true := (Layout.isSome_single? x).trans h
  obtain ⟨n, hn⟩ := Option.isSome_iff_exists.1 hsome
  rw [singleJson, hn]
  exact .num n

theorem nullFree_doubleJson {x : Float} (h : x.isFinite = true) : (Param.doubleJson x).NullFree := by
  have hsome : (Layout.jsonDouble.double? x).isSome = true := (Layout.isSome_double? x).trans h
  obtain ⟨n, hn⟩ := Option.isSome_iff_exists.1 hsome
  rw [Param.doubleJson, hn]
  exact .num n

theorem Param.nullFree_toJson {v : Param} (h : ∀ x ∈ v.numbers, x.isFinite = true) :
    v.toJson.NullFree := by
  cases v with
  | flag b => exact .bool b
  | number x => exact nullFree_doubleJson (h x List.mem_cons_self)
  | text s => exact .str _
  | sequence xs =>
    refine .arr fun j hj => ?_
    obtain ⟨x, hx, rfl⟩ := List.mem_map.1 hj
    exact nullFree_doubleJson (h x hx)

theorem Params.nullFree_toJson {ps : Params} (h : ∀ x ∈ ps.numbers, x.isFinite = true) :
    ps.toJson.NullFree := by
  refine Json.nullFree_object fun m hm => ?_
  obtain ⟨e, he, rfl⟩ := List.mem_map.1 hm
  exact Param.nullFree_toJson fun x hx => h x (List.mem_flatMap.2 ⟨e, he, hx⟩)

theorem Point.nullFree_toJson {p : Point Float32} (h : p.isFinite = true) : p.toJson.NullFree := by
  obtain ⟨hx, hy⟩ := Bool.and_eq_true_iff.1 h
  refine Json.nullFree_object ?_
  simp [nullFree_singleJson hx, nullFree_singleJson hy]

namespace Document

variable {d : Document}

theorem nullFree_toJson (hpositions : ∀ n ∈ d.nodes, n.position.isFinite = true)
    (hnumbers : ∀ x ∈ d.numbers, x.isFinite = true) : d.toJson.NullFree := by
  have hnodes : (Json.arr (d.nodes.map DocumentNode.toJson)).NullFree := by
    refine .arr fun j hj => ?_
    obtain ⟨n, hn, rfl⟩ := List.mem_map.1 hj
    have hparams := Params.nullFree_toJson fun x hx => hnumbers x (List.mem_flatMap.2 ⟨n, hn, hx⟩)
    refine Json.nullFree_object ?_
    simp [Json.text, Layer.toJson, Json.NullFree.str, hparams,
      Point.nullFree_toJson (hpositions n hn)]
  have hlinks : (Json.arr (d.links.map Link.toJson)).NullFree := by
    refine .arr fun j hj => ?_
    obtain ⟨l, -, rfl⟩ := List.mem_map.1 hj
    refine Json.nullFree_object ?_
    simp [Json.text, Json.NullFree.str]
  have hstamp : ∀ s : Stamp, s.toJson.NullFree := by
    intro s
    refine Json.nullFree_object ?_
    simp [Json.text, Json.NullFree.str]
  refine Json.nullFree_object ?_
  cases d.stamp <;> simp [hnodes, hlinks, hstamp]

/-- The document of a diagram whose nodes are all well-formed has no `null` in it, whatever its
stamp, neither as a tree nor as a text. -/
theorem nullFree_text {d : Diagram Float32} (h : ∀ n ∈ d.nodes, n.WellFormed)
    (stamp : Option Stamp) (f : Json.Form) :
    ∃ j, Json.parse? (text { d.document with stamp } f) = some j ∧ j.NullFree := by
  refine ⟨_, Json.parse?_print (legible_toJson _) f, nullFree_toJson ?_ ?_⟩
  · intro m hm
    obtain ⟨n, hn, rfl⟩ := List.mem_map.1 hm
    exact (h n hn).position
  · intro x hx
    obtain ⟨m, hm, hx⟩ := List.mem_flatMap.1 hx
    obtain ⟨n, hn, rfl⟩ := List.mem_map.1 hm
    exact (h n hn).numbers x hx

end Document

end Wireboard
