import Wireboard.Diagram.Id
import Wireboard.Refusal

/-!
# Diagrams

A diagram is a list of nodes, in the order in which they were added and are painted, and a list of
directed links between them.  Links name nodes by their ids, so renaming changes the links and
removing drops them.  Every operation either answers and gives the new diagram or is refused.
-/

namespace Wireboard

/-- A node: what it is called, what it is, where its top left corner is. -/
structure Node (α : Type) where
  id : String
  layer : Layer
  params : Params
  position : Point α
  /-- The width it was last drawn with, once it has been drawn. -/
  width : Option α
  deriving DecidableEq

/-- A link from one node to another. -/
structure Link where
  source : String
  target : String
  deriving DecidableEq

namespace Link

/-- The node is at one of the ends. -/
def touches (l : Link) (id : String) : Bool := l.source == id || l.target == id

/-- The link after the node `old` is called `new`. -/
def rename (old new : String) (l : Link) : Link :=
  ⟨if l.source = old then new else l.source, if l.target = old then new else l.target⟩

end Link

/-- Nodes, links, and the candidates for the ids of further nodes. -/
structure Diagram (α : Type) where
  nodes : List (Node α)
  links : List Link
  supply : List String
  deriving DecidableEq

/-- What toggling a link did. -/
inductive Toggle where
  | added | removed
  deriving DecidableEq

namespace Diagram

variable {α : Type}

/-- No nodes, and the given supply of ids. -/
def empty (supply : List String) : Diagram α := ⟨[], [], supply⟩

/-! ### Queries -/

/-- The node with the given id. -/
def node? (d : Diagram α) (id : String) : Option (Node α) := d.nodes.find? (·.id == id)

/-- The ids of the nodes, in order. -/
def ids (d : Diagram α) : List String := d.nodes.map (·.id)

/-- A node bears the id. -/
def isLive (d : Diagram α) (id : String) : Bool := d.nodes.any (·.id == id)

/-- There is a link from `source` to `target`. -/
def hasLink (d : Diagram α) (source target : String) : Bool := d.links.contains ⟨source, target⟩

/-- The links at a node, in order. -/
def linksAt (d : Diagram α) (id : String) : List Link := d.links.filter (·.touches id)

/-- The node called `holder` may be given the id `new`. -/
def isValidId (d : Diagram α) (new holder : String) : Bool := Wireboard.isValidId new holder d.ids

/-! ### Operations -/

/-- Changes the node with the given id. -/
def modify (d : Diagram α) (id : String) (f : Node α → Node α) : Diagram α :=
  { d with nodes := d.nodes.map fun n => if n.id = id then f n else n }

variable [Scalar α]

/-- Adds a node with a fresh id and the layer's default parameters, above all others. -/
def add (d : Diagram α) (layer : Layer) (p : Point α) : Except (Refusal α) (Node α × Diagram α) :=
  if p.isFinite then
    match drawFresh d.ids d.supply with
    | some (id, supply) =>
      let n : Node α := ⟨id, layer, layer.defaults, p, none⟩
      .ok (n, { d with nodes := d.nodes ++ [n], supply })
    | none => .error .noFreshId
  else .error (.badPosition p)

/-- Adds a node whose layer is given by name. -/
def addNamed (d : Diagram α) (name : String) (p : Point α) :
    Except (Refusal α) (Node α × Diagram α) :=
  match Layer.ofName? name with
  | some layer => d.add layer p
  | none => .error (.unknownLayer (trimmed name))

/-- Removes a node and the links at it. -/
def remove (d : Diagram α) (id : String) : Except (Refusal α) (Node α × Diagram α) :=
  match d.node? id with
  | some n =>
    .ok (n, { d with
      nodes := d.nodes.filter (·.id != id), links := d.links.filter (!·.touches id) })
  | none => .error (.unknownNode id)

/-- Gives a node another id, blanks around it aside, and answers with the id that is stored.  Its
links follow. -/
def rename (d : Diagram α) (id new : String) : Except (Refusal α) (String × Diagram α) :=
  let name := trimmed new
  if name = "" then .error .emptyId
  else if !d.isLive id then .error (.unknownNode id)
  else if !d.isValidId name id then .error (.duplicateId name)
  else if name = id then .ok (name, d)
  else .ok (name, { d.modify id ({ · with id := name }) with links := d.links.map (·.rename id name) })

/-- Stores a typed text as the value of a parameter, and answers with that value. -/
def update (d : Diagram α) (id name raw : String) : Except (Refusal α) (Param × Diagram α) :=
  match d.node? id with
  | some n =>
    let v := Param.coerce name raw (n.params.get? name)
    .ok (v, d.modify id fun n => { n with params := n.params.insert name v })
  | none => .error (.unknownNode id)

/-- Stores a value of a parameter. -/
def setParam (d : Diagram α) (id name : String) (v : Param) : Except (Refusal α) (Diagram α) :=
  if d.isLive id then .ok (d.modify id fun n => { n with params := n.params.insert name v })
  else .error (.unknownNode id)

/-- Moves a node. -/
def setPosition (d : Diagram α) (id : String) (p : Point α) : Except (Refusal α) (Diagram α) :=
  if !p.isFinite then .error (.badPosition p)
  else if d.isLive id then .ok (d.modify id ({ · with position := p }))
  else .error (.unknownNode id)

/-- The width is finite and not negative. -/
def isWidth (w : α) : Bool := Scalar.isFinite w && decide (0.0 ≤ w)

/-- Records the width that a node is drawn with.  One that is numerically the same stays as it
is. -/
def setWidth (d : Diagram α) (id : String) (w : α) : Except (Refusal α) (Diagram α) :=
  if !isWidth w then .error (.badWidth w)
  else if d.isLive id then
    .ok (d.modify id fun n => if n.width == some w then n else { n with width := some w })
  else .error (.unknownNode id)

/-- Removes the link if it is there and adds it otherwise. -/
def toggle (d : Diagram α) (source target : String) : Except (Refusal α) (Toggle × Diagram α) :=
  if source = target then .error (.selfLink source)
  else if !d.isLive source then .error (.unknownNode source)
  else if !d.isLive target then .error (.unknownNode target)
  else if d.hasLink source target then
    .ok (.removed, { d with links := d.links.erase ⟨source, target⟩ })
  else .ok (.added, { d with links := d.links ++ [⟨source, target⟩] })

/-- Removes all nodes and links; the supply stays. -/
def clear (d : Diagram α) : Diagram α := { d with nodes := [], links := [] }

end Diagram

end Wireboard
