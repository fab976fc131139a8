/-!
# The selection

At most one node is selected.
-/

namespace Wireboard

/-- The id of the selected node, if there is one. -/
structure Selection where
  id : Option String
  deriving DecidableEq

namespace Selection

/-- Nothing is selected. -/
def none : Selection := ⟨.none⟩

/-- Just this node is selected. -/
def only (id : String) : Selection := ⟨some id⟩

/-- The node is selected. -/
def contains (s : Selection) (id : String) : Bool := s.id == some id

/-- Nothing is selected. -/
def isEmpty (s : Selection) : Bool := s.id.isNone

/-- The selection after the node `old` is called `new`. -/
def rename (s : Selection) (old new : String) : Selection :=
  if s.contains old then only new else s

/-- The selection after the node is gone. -/
def forget (s : Selection) (id : String) : Selection := if s.contains id then none else s

/-- The rows that show the selection: one or none. -/
def rows (s : Selection) : List String := s.id.toList

end Selection

end Wireboard
