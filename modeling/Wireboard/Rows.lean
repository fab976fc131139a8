import Wireboard.Session.Basic

/-!
# Rows

A user interface keeps lists of rows for what it paints: one for nodes, one for links, one for the
selection.  Here such lists are brought up to date with a session, with as few changes as may be.
Rows may carry more than is asked of them here, and keep it as long as they are kept.
-/

namespace Wireboard

/-- What is to be done to a list of rows. -/
inductive RowChange (ρ : Type) where
  /-- The rows are right as they are. -/
  | keep
  /-- The rows are thrown away for these. -/
  | replace (rows : List ρ)

/-- The rows after a change. -/
def RowChange.apply {ρ : Type} (c : RowChange ρ) (rows : List ρ) : List ρ :=
  match c with
  | keep => rows
  | replace rows => rows

/-- How rows stand for nodes. -/
structure NodeRows (α ρ : Type) where
  id : ρ → String
  x : ρ → α
  y : ρ → α
  setX : α → ρ → ρ
  setY : α → ρ → ρ
  ofNode : Node α → ρ

/-- How rows stand for links. -/
structure LinkRows (ρ : Type) where
  source : ρ → String
  target : ρ → String
  ofLink : Link → ρ

namespace NodeRows

variable {α ρ : Type} [Scalar α] (R : NodeRows α ρ)

/-- A row written anew unless it is at its node's position already. -/
def place (n : Node α) (r : ρ) : ρ :=
  if R.x r != n.position.x || R.y r != n.position.y then
    R.setY n.position.y (R.setX n.position.x r)
  else r

/-- The row of a live node, at its position. -/
def refresh? (d : Diagram α) (r : ρ) : Option ρ := (d.node? (R.id r)).map fun n => R.place n r

/-- Appends a row for the node unless there is one. -/
def append (rows : List ρ) (n : Node α) : List ρ :=
  if rows.any (R.id · == n.id) then rows else rows ++ [R.ofNode n]

/-- The rows brought up to date: rows of nodes that are gone are dropped, nodes without a row get one
at the end. -/
def sync (d : Diagram α) (rows : List ρ) : List ρ :=
  d.nodes.foldl R.append (rows.filterMap (R.refresh? d))

end NodeRows

namespace LinkRows

variable {α ρ : Type} (R : LinkRows ρ)

/-- The link that a row stands for. -/
def link (r : ρ) : Link := ⟨R.source r, R.target r⟩

/-- The change that brings the rows up to date: none if they stand for the links in order, or else
all rows are made anew. -/
def sync (d : Diagram α) (rows : List ρ) : RowChange ρ :=
  if rows.map R.link = d.links then .keep else .replace (d.links.map R.ofLink)

end LinkRows

/-- The change that brings the selection's rows up to date. -/
def Selection.sync (s : Selection) (rows : List String) : RowChange String :=
  if rows = s.rows then .keep else .replace s.rows

end Wireboard
