import Wireboard.Document
import Wireboard.Proofs.Json.Record
import Wireboard.Proofs.Json.RoundTrip
import Wireboard.Proofs.Params

/-!
# Documents are read as they are written

Of a document only its numbers may get lost in its text.  What becomes of a number is known from the
text of that number alone (`rereadSingle?`, `rereadDouble?`).

* `legible_toJson`: the text of a document is well-formed whatever its numbers are, so it is read
  back as the tree that was written.
* `ofJson?_toJson`, `ofJson?_toJson_eq_none`: the tree is decoded to the document if this is so for
  each of its numbers, and not at all if one of them is not finite.  Names, texts, layers and the
  shapes of parameters can always be told from the tree.
* `ofText?_text` puts these together.
-/

namespace Wireboard

/-! ## numbers -/

/-- The single that is read where this one was written. -/
def rereadSingle? (x : Float32) : Option Float32 :=
  (Json.parse? ((singleJson x).print .compact)).bind Json.toSingle?

/-- The double that is read where this one was written. -/
def rereadDouble? (x : Float) : Option Float :=
  (Json.parse? ((Param.doubleJson x).print .compact)).bind Json.toDouble?

theorem legible_singleJson (x : Float32) : (singleJson x).Legible := by
  unfold singleJson
  split
  · next h => exact .num (Layout.wellFormed_of_single? h)
  · exact .null

theorem legible_doubleJson (x : Float) : (Param.doubleJson x).Legible := by
  unfold Param.doubleJson
  split
  · next h => exact .num (Layout.wellFormed_of_double? h)
  · exact .null

theorem rereadSingle?_eq (x : Float32) : rereadSingle? x = Json.toSingle? (singleJson x) := by
  rw [rereadSingle?, Json.parse?_print (legible_singleJson x), Option.bind_some]

theorem rereadDouble?_eq (x : Float) : rereadDouble? x = Json.toDouble? (Param.doubleJson x) := by
  rw [rereadDouble?, Json.parse?_print (legible_doubleJson x), Option.bind_some]

/-- What is not finite is written as `null`, which is no number. -/
theorem rereadSingle?_eq_none {x : Float32} (h : x.isFinite = false) : rereadSingle? x = none := by
  have hnone : Layout.jsonSingle.single? x = none := by
    rw [← Option.isNone_iff_eq_none, ← Option.isSome_eq_false_iff, Layout.isSome_single?, h]
  rw [rereadSingle?_eq, singleJson, hnone]
  rfl

theorem rereadDouble?_eq_none {x : Float} (h : x.isFinite = false) : rereadDouble? x = none := by
  have hnone : Layout.jsonDouble.double? x = none := by
    rw [← Option.isNone_iff_eq_none, ← Option.isSome_eq_false_iff, Layout.isSome_double?, h]
  rw [rereadDouble?_eq, Param.doubleJson, hnone]
  rfl

/-! ## parameters -/

namespace Param

/-- The numbers in a parameter. -/
def numbers : Param → List Float
  | number x => [x]
  | sequence xs => xs
  | _ => []

theorem legible_toJson (v : Param) : v.toJson.Legible := by
  cases v with
  | flag b => exact .bool b
  | number x => exact legible_doubleJson x
  | text s => exact .str _
  | sequence xs =>
    refine .arr fun j hj => ?_
    obtain ⟨x, -, rfl⟩ := List.mem_map.1 hj
    exact legible_doubleJson x

theorem ofJson?_doubleJson (x : Float) :
    ofJson? (doubleJson x) = (rereadDouble? x).map number := by
  rw [rereadDouble?_eq, doubleJson]
  cases Layout.jsonDouble.double? x <;> rfl

theorem ofJson?_toJson {v : Param} (h : ∀ x ∈ v.numbers, rereadDouble? x = some x) :
    ofJson? v.toJson = some v := by
  cases v with
  | flag b => rfl
  | number x => rw [toJson, ofJson?_doubleJson, h x (List.mem_singleton.2 rfl), Option.map_some]
  | text s => rfl
  | sequence xs =>
    have hxs : (xs.map doubleJson).mapM Json.toDouble? = some xs :=
      Json.mapM_map_eq_some fun x hx => (rereadDouble?_eq x).symm.trans (h x hx)
    rw [toJson, ofJson?, hxs, Option.map_some]

theorem ofJson?_toJson_eq_none {v : Param} {x : Float} (hx : x ∈ v.numbers)
    (h : rereadDouble? x = none) : ofJson? v.toJson = none := by
  cases v with
  | flag b => cases hx
  | number y =>
    obtain rfl := List.mem_singleton.1 hx
    rw [toJson, ofJson?_doubleJson, h, Option.map_none]
  | text s => cases hx
  | sequence xs =>
    have hxs : (xs.map doubleJson).mapM Json.toDouble? = none :=
      Json.mapM_map_eq_none hx ((rereadDouble?_eq x).symm.trans h)
    rw [toJson, ofJson?, hxs, Option.map_none]

end Param

namespace Params

/-- The numbers in the parameters. -/
def numbers (ps : Params) : List Float := ps.entries.flatMap fun e => e.2.numbers

theorem insertEntry_of_lt {name : String} (v : Param) {es : List (String × Param)}
    (h : ∀ e ∈ es, e.1 < name) : insertEntry name v es = es ++ [(name, v)] := by
  induction es with
  | nil => rfl
  | cons e es ih =>
    have he : e.1 < name := h e List.mem_cons_self
    have hlt : ¬name < e.1 := fun hlt => String.lt_irrefl _ (String.lt_trans he hlt)
    have hne : name ≠ e.1 := fun heq => String.lt_irrefl _ (heq ▸ he)
    rw [insertEntry, if_neg hlt, if_neg hne, ih fun a ha => h a (List.mem_cons_of_mem _ ha),
      List.cons_append]

/-- Entries that are in order are stored as they are. -/
theorem entries_foldl_insert (es : List (String × Param)) :
    ∀ ps : Params, (ps.entries ++ es).Pairwise (fun a b => a.1 < b.1) →
      (es.foldl (fun ps e => ps.insert e.1 e.2) ps).entries = ps.entries ++ es := by
  induction es with
  | nil => intro ps _; rw [List.foldl_nil, List.append_nil]
  | cons e es ih =>
    intro ps h
    have hlast : (ps.insert e.1 e.2).entries = ps.entries ++ [e] :=
      insertEntry_of_lt e.2 fun a ha =>
        (List.pairwise_append.1 h).2.2 a ha e List.mem_cons_self
    rw [List.foldl_cons, ih, hlast, List.append_assoc, List.singleton_append]
    rwa [hlast, List.append_assoc, List.singleton_append]

theorem ofList_entries (ps : Params) : ofList ps.entries = ps :=
  eq_of_entries (entries_foldl_insert ps.entries empty ps.ascending)

theorem legible_toJson (ps : Params) : ps.toJson.Legible := by
  refine Json.legible_object fun m hm => ?_
  obtain ⟨e, -, rfl⟩ := List.mem_map.1 hm
  exact e.2.legible_toJson

/-- The parameters are decoded one by one, each under its name. -/
theorem ofJson?_toJson_eq (ps : Params) :
    ofJson? ps.toJson = ((ps.entries.map fun e => (e.1, e.2.toJson)).mapM fun m =>
      (Param.ofJson? m.2).map (m.1, ·)).map ofList := by
  rw [toJson, Json.object, ofJson?, Json.named?_object]
  simp only [Option.bind_eq_bind, Option.bind_some, Option.map_eq_bind]
  rfl

theorem ofJson?_toJson {ps : Params} (h : ∀ x ∈ ps.numbers, rereadDouble? x = some x) :
    ofJson? ps.toJson = some ps := by
  have hentries : (ps.entries.map fun e => (e.1, e.2.toJson)).mapM (fun m =>
      (Param.ofJson? m.2).map (m.1, ·)) = some ps.entries := by
    refine Json.mapM_map_eq_some fun e he => ?_
    have hv := Param.ofJson?_toJson fun x hx => h x (List.mem_flatMap.2 ⟨e, he, hx⟩)
    rw [hv, Option.map_some]
  rw [ofJson?_toJson_eq, hentries, Option.map_some, ofList_entries]

theorem ofJson?_toJson_eq_none {ps : Params} {x : Float} (hx : x ∈ ps.numbers)
    (h : rereadDouble? x = none) : ofJson? ps.toJson = none := by
  obtain ⟨e, he, hx⟩ := List.mem_flatMap.1 hx
  have hentries : (ps.entries.map fun e => (e.1, e.2.toJson)).mapM (fun m =>
      (Param.ofJson? m.2).map (m.1, ·)) = none := by
    refine Json.mapM_map_eq_none he ?_
    rw [Param.ofJson?_toJson_eq_none hx h, Option.map_none]
  rw [ofJson?_toJson_eq, hentries, Option.map_none]

end Params

/-! ## records -/

theorem Layer.ofJson?_toJson (l : Layer) : ofJson? l.toJson = some l := by
  cases l <;> rfl

theorem Point.legible_toJson (p : Point Float32) : p.toJson.Legible := by
  refine Json.legible_object ?_
  simp [legible_singleJson]

theorem Point.ofJson?_toJson (p : Point Float32) :
    ofJson? p.toJson = (rereadSingle? p.x).bind fun x => (rereadSingle? p.y).map fun y => ⟨x, y⟩ := by
  have hrecord : Json.record? [["x"], ["y"]] p.toJson =
      some [some (singleJson p.x), some (singleJson p.y)] :=
    Json.record?_object ["x", "y"] [("x", singleJson p.x), ("y", singleJson p.y)] (by simp)
  rw [ofJson?, hrecord, rereadSingle?_eq, rereadSingle?_eq]
  simp only [Option.bind_eq_bind, Option.bind_some, Option.map_eq_bind]
  rfl

theorem Link.legible_toJson (l : Link) : l.toJson.Legible := by
  refine Json.legible_object ?_
  simp [Json.text, Json.Legible.str]

theorem Link.ofJson?_toJson (l : Link) : ofJson? l.toJson = some l := by
  have hrecord : Json.record? [["from"], ["to"]] l.toJson =
      some [some (Json.text l.source), some (Json.text l.target)] :=
    Json.record?_object ["from", "to"] [("from", Json.text l.source), ("to", Json.text l.target)]
      (by simp)
  rw [ofJson?, hrecord]
  rfl

theorem Stamp.legible_toJson (s : Stamp) : s.toJson.Legible := by
  refine Json.legible_object ?_
  simp [Json.text, Json.Legible.str]

theorem Stamp.ofJson?_toJson (s : Stamp) : ofJson? s.toJson = some s := by
  have hrecord : Json.record? [["tool"], ["version"]] s.toJson =
      some [some (Json.text s.tool), some (Json.text s.version)] :=
    Json.record?_object ["tool", "version"]
      [("tool", Json.text s.tool), ("version", Json.text s.version)] (by simp)
  rw [ofJson?, hrecord]
  rfl

namespace DocumentNode

theorem legible_toJson (n : DocumentNode) : n.toJson.Legible := by
  refine Json.legible_object ?_
  simp [Json.text, Layer.toJson, Json.Legible.str, n.params.legible_toJson,
    n.position.legible_toJson]

/-- Ids and layers are always found again. -/
theorem ofJson?_toJson (n : DocumentNode) :
    ofJson? n.toJson = (Params.ofJson? n.params.toJson).bind fun params =>
      (Point.ofJson? n.position.toJson).map fun position => { n with params, position } := by
  have hrecord : Json.record? [["id"], ["kind"], ["parameters"], ["position"]] n.toJson =
      some [some (Json.text n.id), some n.layer.toJson, some n.params.toJson,
        some n.position.toJson] :=
    Json.record?_object ["id", "kind", "parameters", "position"]
      [("id", Json.text n.id), ("kind", n.layer.toJson), ("parameters", n.params.toJson),
        ("position", n.position.toJson)] (by simp)
  have hlayer : Layer.ofJson? n.layer.toJson = some n.layer := Layer.ofJson?_toJson n.layer
  rw [ofJson?, hrecord]
  simp only [Option.bind_eq_bind, Option.bind_some, Option.map_eq_bind, hlayer]
  rfl

end DocumentNode

/-! ## documents -/

namespace Document

variable {d : Document}

/-- All coordinates in the document. -/
def coordinates (d : Document) : List Float32 :=
  d.nodes.flatMap fun n => [n.position.x, n.position.y]

/-- All numbers in the parameters of the document. -/
def numbers (d : Document) : List Float := d.nodes.flatMap fun n => n.params.numbers

theorem legible_toJson (d : Document) : d.toJson.Legible := by
  have hnodes : (Json.arr (d.nodes.map DocumentNode.toJson)).Legible := by
    refine .arr fun j hj => ?_
    obtain ⟨n, -, rfl⟩ := List.mem_map.1 hj
    exact n.legible_toJson
  have hlinks : (Json.arr (d.links.map Link.toJson)).Legible := by
    refine .arr fun j hj => ?_
    obtain ⟨l, -, rfl⟩ := List.mem_map.1 hj
    exact l.legible_toJson
  refine Json.legible_object ?_
  cases d.stamp <;> simp [hnodes, hlinks, Stamp.legible_toJson]

/-- Links and the stamp are always found again. -/
theorem ofJson?_toJson_eq (d : Document) :
    ofJson? d.toJson =
      ((d.nodes.map DocumentNode.toJson).mapM DocumentNode.ofJson?).map ({ d with nodes := · }) := by
  have hrecord : Json.record? [["nodes"], ["connections"], ["metadata"]] d.toJson =
      some [some (.arr (d.nodes.map DocumentNode.toJson)), some (.arr (d.links.map Link.toJson)),
        d.stamp.map Stamp.toJson] := by
    refine (Json.record?_object ["nodes", "connections", "metadata"] _ ?_).trans ?_
    · cases d.stamp <;> simp
    · cases d.stamp <;> rfl
  have hlinks : Json.list? Link.ofJson? (.arr (d.links.map Link.toJson)) = some d.links :=
    Json.mapM_map_eq_some fun l _ => l.ofJson?_toJson
  have hstamp : stampOfJson? (d.stamp.map Stamp.toJson) = some d.stamp := by
    cases d.stamp with
    | none => rfl
    | some s => exact congrArg (Option.map some) s.ofJson?_toJson
  rw [ofJson?, hrecord]
  simp only [Option.bind_eq_bind, Option.bind_some, hlinks, hstamp]
  rw [Option.map_eq_bind]
  rfl

theorem ofJson?_toJson (hcoordinates : ∀ x ∈ d.coordinates, rereadSingle? x = some x)
    (hnumbers : ∀ x ∈ d.numbers, rereadDouble? x = some x) : ofJson? d.toJson = some d := by
  have hnodes : (d.nodes.map DocumentNode.toJson).mapM DocumentNode.ofJson? = some d.nodes := by
    refine Json.mapM_map_eq_some fun n hn => ?_
    have hparams := Params.ofJson?_toJson fun x hx => hnumbers x (List.mem_flatMap.2 ⟨n, hn, hx⟩)
    have hx := hcoordinates n.position.x (List.mem_flatMap.2 ⟨n, hn, by simp⟩)
    have hy := hcoordinates n.position.y (List.mem_flatMap.2 ⟨n, hn, by simp⟩)
    rw [DocumentNode.ofJson?_toJson, hparams, Point.ofJson?_toJson, hx, hy]
    rfl
  rw [ofJson?_toJson_eq, hnodes, Option.map_some]

theorem ofJson?_toJson_eq_none
    (h : (∃ x ∈ d.coordinates, rereadSingle? x = none) ∨
      ∃ x ∈ d.numbers, rereadDouble? x = none) : ofJson? d.toJson = none := by
  have hnode : ∃ n ∈ d.nodes, DocumentNode.ofJson? n.toJson = none := by
    rcases h with ⟨x, hx, hnone⟩ | ⟨x, hx, hnone⟩
    · obtain ⟨n, hn, hx⟩ := List.mem_flatMap.1 hx
      have hposition : Point.ofJson? n.position.toJson = none := by
        rw [Point.ofJson?_toJson]
        simp only [List.mem_cons, List.not_mem_nil, or_false] at hx
        rcases hx with rfl | rfl
        · rw [hnone, Option.bind_none]
        · rw [hnone]
          cases rereadSingle? n.position.x <;> rfl
      refine ⟨n, hn, ?_⟩
      rw [DocumentNode.ofJson?_toJson, hposition]
      cases Params.ofJson? n.params.toJson <;> rfl
    · obtain ⟨n, hn, hx⟩ := List.mem_flatMap.1 hx
      refine ⟨n, hn, ?_⟩
      rw [DocumentNode.ofJson?_toJson, Params.ofJson?_toJson_eq_none hx hnone, Option.bind_none]
  obtain ⟨n, hn, hnone⟩ := hnode
  rw [ofJson?_toJson_eq, Json.mapM_map_eq_none hn hnone, Option.map_none]

/-- **Documents survive their text.**  In both forms: if every coordinate and every number of the
parameters is finite and is read back from its own text, the text of the document is read back as
the document.  If one of them is not finite, it is not read at all. -/
theorem ofText?_text (d : Document) (f : Json.Form) :
    ((∀ x ∈ d.coordinates, x.isFinite = true ∧ rereadSingle? x = some x) →
      (∀ x ∈ d.numbers, x.isFinite = true ∧ rereadDouble? x = some x) →
        ofText? (d.text f) = some d) ∧
      ((∃ x ∈ d.coordinates, x.isFinite = false) ∨ (∃ x ∈ d.numbers, x.isFinite = false) →
        ofText? (d.text f) = none) := by
  have htext : ofText? (d.text f) = ofJson? d.toJson := by
    rw [ofText?, text, Json.parse?_print d.legible_toJson, Option.bind_some]
  rw [htext]
  refine ⟨fun hcoordinates hnumbers => ?_, fun h => ?_⟩
  · exact ofJson?_toJson (fun x hx => (hcoordinates x hx).2) fun x hx => (hnumbers x hx).2
  · refine ofJson?_toJson_eq_none (h.imp ?_ ?_)
    · exact fun ⟨x, hx, hfinite⟩ => ⟨x, hx, rereadSingle?_eq_none hfinite⟩
    · exact fun ⟨x, hx, hfinite⟩ => ⟨x, hx, rereadDouble?_eq_none hfinite⟩

/-- Odd characters, a text that looks like JSON, and all shapes of parameters survive in both forms, and
with an infinite coordinate nothing is read. -/
theorem ofText?_text_odd :
    let d : Document :=
      ⟨[⟨"a\"\\\n\x01\u00e9", .conv2d, .ofList [("b", .flag true), ("n", .number 0.5),
          ("s", .sequence [16.0, -0.0, 3e-7]), ("t", .text "null")], ⟨-1.5, 16.0⟩⟩],
        [⟨"a", "b"⟩], some .own⟩
    let lost : Document := ⟨[⟨"a", .concat, .empty, ⟨1.0 / 0.0, 0.0⟩⟩], [], none⟩
    (∀ f, ofText? (d.text f) = some d) ∧ ∀ f, ofText? (lost.text f) = none := by
  intro d lost
  have hcoordinates : ∀ x ∈ d.coordinates, x.isFinite = true ∧ rereadSingle? x = some x := by
    decide +kernel
  have hnumbers : ∀ x ∈ d.numbers, x.isFinite = true ∧ rereadDouble? x = some x := by
    decide +kernel
  have hlost : ∃ x ∈ lost.coordinates, x.isFinite = false := by
    decide +kernel
  exact ⟨fun f => (ofText?_text d f).1 hcoordinates hnumbers,
    fun f => (ofText?_text lost f).2 (.inl hlost)⟩

/-- A finite number whose text is read as its neighbour. -/
example : (0.9847837568032373 : Float).isFinite = true ∧
    rereadDouble? 0.9847837568032373 = some 0.9847837568032372 := by
  decide +kernel

end Document

end Wireboard
