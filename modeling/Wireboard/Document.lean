import Wireboard.Diagram.Basic
import Wireboard.Json.Parser
import Wireboard.Json.Printer

/-!
# Documents

A diagram as it is handed to other programs: nodes and links without widths and without the supply
of ids, and a stamp that says who wrote it.  Documents are written and read as JSON.
-/

namespace Wireboard

/-- A node of a document. -/
structure DocumentNode where
  id : String
  layer : Layer
  params : Params
  position : Point Float32
  deriving DecidableEq

/-- The program that wrote a document. -/
structure Stamp where
  tool : String
  version : String
  deriving DecidableEq

/-- A diagram for other programs. -/
structure Document where
  nodes : List DocumentNode
  links : List Link
  stamp : Option Stamp
  deriving DecidableEq

/-- The document of a diagram, without a stamp. -/
def Diagram.document (d : Diagram Float32) : Document where
  nodes := d.nodes.map fun n => ⟨n.id, n.layer, n.params, n.position⟩
  links := d.links
  stamp := none

/-- The stamp of this program. -/
def Stamp.own : Stamp := ⟨"layer-canvas", "0.1.0"⟩

/-- The document with the stamp of this program. -/
def Document.stamped (d : Document) : Document := { d with stamp := some .own }

/-! ### JSON -/

/-- A single; what is not finite becomes `null`. -/
def singleJson (x : Float32) : Json :=
  match Layout.jsonSingle.single? x with
  | some n => .num n
  | none => .null

namespace Point

/-- A point in JSON. -/
def toJson (p : Point Float32) : Json := .object [("x", singleJson p.x), ("y", singleJson p.y)]

/-- The point that a JSON record stands for. -/
def ofJson? (j : Json) : Option (Point Float32) := do
  match ← Json.record? [["x"], ["y"]] j with
  | [some x, some y] => return ⟨← Json.toSingle? x, ← Json.toSingle? y⟩
  | _ => none

end Point

namespace Link

/-- A link in JSON. -/
def toJson (l : Link) : Json := .object [("from", Json.text l.source), ("to", Json.text l.target)]

/-- The link that a JSON record stands for. -/
def ofJson? (j : Json) : Option Link := do
  match ← Json.record? [["from"], ["to"]] j with
  | [some source, some target] => return ⟨← Json.string? source, ← Json.string? target⟩
  | _ => none

end Link

namespace DocumentNode

/-- A node in JSON. -/
def toJson (n : DocumentNode) : Json :=
  .object [("id", Json.text n.id), ("kind", n.layer.toJson), ("parameters", n.params.toJson),
    ("position", n.position.toJson)]

/-- The node that a JSON record stands for. -/
def ofJson? (j : Json) : Option DocumentNode := do
  match ← Json.record? [["id"], ["kind"], ["parameters"], ["position"]] j with
  | [some id, some layer, some params, some position] =>
    return ⟨← Json.string? id, ← Layer.ofJson? layer, ← Params.ofJson? params,
      ← Point.ofJson? position⟩
  | _ => none

end DocumentNode

namespace Stamp

/-- A stamp in JSON. -/
def toJson (s : Stamp) : Json :=
  .object [("tool", Json.text s.tool), ("version", Json.text s.version)]

/-- The stamp that a JSON record stands for. -/
def ofJson? (j : Json) : Option Stamp := do
  match ← Json.record? [["tool"], ["version"]] j with
  | [some tool, some version] => return ⟨← Json.string? tool, ← Json.string? version⟩
  | _ => none

end Stamp

namespace Document

/-- A document in JSON; without a stamp, its member is left out. -/
def toJson (d : Document) : Json :=
  .object ([("nodes", .arr (d.nodes.map DocumentNode.toJson)),
    ("connections", .arr (d.links.map Link.toJson))] ++
    d.stamp.toList.map fun s => ("metadata", s.toJson))

/-- The stamp, which may be absent or `null`. -/
def stampOfJson? : Option Json → Option (Option Stamp)
  | none => some none
  | some .null => some none
  | some j => (Stamp.ofJson? j).map some

/-- The document that a JSON record stands for. -/
def ofJson? (j : Json) : Option Document := do
  match ← Json.record? [["nodes"], ["connections"], ["metadata"]] j with
  | [some nodes, some links, stamp] =>
    return ⟨← Json.list? DocumentNode.ofJson? nodes, ← Json.list? Link.ofJson? links,
      ← stampOfJson? stamp⟩
  | _ => none

/-- The text of a document. -/
def text (d : Document) (f : Json.Form) : String := d.toJson.print f

/-- The document that a text stands for. -/
def ofText? (s : String) : Option Document := (Json.parse? s).bind ofJson?

end Document

end Wireboard
