import Wireboard.Diagram.Edit

/-!
# Registries

A diagram names the ends of its links by ids, which change.  A registry is the same graph over
permanent identities: every node has a serial number, given at its creation and never again, and a
link is a pair of serial numbers.  Ids are only looked up, to find the serial number that an edit is
about, so a rename touches one entry and no pair.

The edits are those of diagrams, with the same answers and refusals.  Which registry goes with which
diagram is the subject of `Wireboard.Proofs.Registry.Refinement`.
-/

namespace Wireboard

/-- A node under its serial number. -/
structure Entry (α : Type) where
  serial : Nat
  node : Node α

/-- Nodes and links by serial numbers, in the order of their creation. -/
structure Registry (α : Type) where
  /-- The serial number of the next node. -/
  next : Nat
  entries : List (Entry α)
  pairs : List (Nat × Nat)
  supply : List String

namespace Registry

variable {α : Type}

def empty (supply : List String) : Registry α := ⟨0, [], [], supply⟩

/-- The nodes without their serial numbers. -/
def nodes (r : Registry α) : List (Node α) := r.entries.map (·.node)

/-- The ids that the nodes bear at present. -/
def ids (r : Registry α) : List String := r.entries.map (·.node.id)

def serials (r : Registry α) : List Nat := r.entries.map (·.serial)

/-- The node that bears the id at present. -/
def holder? (r : Registry α) (id : String) : Option (Entry α) := r.entries.find? (·.node.id == id)

def serial? (r : Registry α) (id : String) : Option Nat := (r.holder? id).map (·.serial)

/-- The ends of a link, read through the ids that the nodes bear at present. -/
def read (r : Registry α) (l : Link) : Option Nat × Option Nat :=
  (r.serial? l.source, r.serial? l.target)

/-! ## edits -/

/-- Changes the node with the given serial number. -/
def amend (r : Registry α) (k : Nat) (f : Node α → Node α) : Registry α :=
  { r with
    entries := r.entries.map fun e => if e.serial = k then { e with node := f e.node } else e }

/-- The registry without a serial number and the pairs that it is in. -/
def without (r : Registry α) (k : Nat) : Registry α :=
  { r with
    entries := r.entries.filter (·.serial != k)
    pairs := r.pairs.filter fun p => p.1 != k && p.2 != k }

/-- The answer about the node that bears the id, or the refusal if there is none. -/
def about {β : Type} (r : Registry α) (id : String) (f : Entry α → Except (Refusal α) β) :
    Except (Refusal α) β :=
  match r.holder? id with
  | some e => f e
  | none => .error (.unknownNode id)

variable [Scalar α]

def add (r : Registry α) (l : Layer) (p : Point α) :
    Except (Refusal α) (Outcome α × Registry α) :=
  if p.isFinite then
    match drawFresh r.ids r.supply with
    | some (id, supply) =>
      let n : Node α := ⟨id, l, l.defaults, p, none⟩
      .ok (.node n,
        { r with next := r.next + 1, entries := r.entries ++ [⟨r.next, n⟩], supply })
    | none => .error .noFreshId
  else .error (.badPosition p)

/-- Carries out an edit. -/
def perform (r : Registry α) : Edit α → Except (Refusal α) (Outcome α × Registry α)
  | .add l p => r.add l p
  | .addNamed name p =>
    match Layer.ofName? name with
    | some l => r.add l p
    | none => .error (.unknownLayer (trimmed name))
  | .remove id => r.about id fun e => .ok (.node e.node, r.without e.serial)
  | .rename id new =>
    let name := trimmed new
    if name = "" then .error .emptyId
    else r.about id fun e =>
      if name ∈ r.ids ∧ name ≠ id then .error (.duplicateId name)
      else .ok (.id name, r.amend e.serial ({ · with id := name }))
  | .update id name raw =>
    r.about id fun e =>
      let v := Param.coerce name raw (e.node.params.get? name)
      .ok (.param v, r.amend e.serial fun n => { n with params := n.params.insert name v })
  | .setParam id name v =>
    r.about id fun e =>
      .ok (.done, r.amend e.serial fun n => { n with params := n.params.insert name v })
  | .setPosition id p =>
    if p.isFinite then
      r.about id fun e => .ok (.done, r.amend e.serial ({ · with position := p }))
    else .error (.badPosition p)
  | .setWidth id w =>
    if Diagram.isWidth w then
      r.about id fun e => .ok (.done, r.amend e.serial fun n =>
        if n.width == some w then n else { n with width := some w })
    else .error (.badWidth w)
  | .toggle source target =>
    if source = target then .error (.selfLink source)
    else r.about source fun a => r.about target fun b =>
      if (a.serial, b.serial) ∈ r.pairs then
        .ok (.toggled .removed, { r with pairs := r.pairs.erase (a.serial, b.serial) })
      else .ok (.toggled .added, { r with pairs := r.pairs ++ [(a.serial, b.serial)] })
  | .clear => .ok (.done, { r with entries := [], pairs := [] })

/-- The registry after an edit. -/
def step (r : Registry α) (e : Edit α) : Registry α :=
  match r.perform e with
  | .ok (_, r) => r
  | .error _ => r

/-- The registry after a run of edits. -/
def run (r : Registry α) (es : List (Edit α)) : Registry α := es.foldl step r

end Registry

end Wireboard
