import Wireboard.Diagram.Edit
import Wireboard.Document
import Wireboard.Rows
import Wireboard.Session.Action
import Wireboard.Settings.File
import Wireboard.Proofs.Diagram.Operations
import Wireboard.Proofs.Diagram.Sound
import Wireboard.Proofs.Diagram.InPlace
import Wireboard.Proofs.Anchor
import Wireboard.Proofs.Session.Steps
import Wireboard.Proofs.Session.Sound
import Wireboard.Proofs.Session.View
import Wireboard.Proofs.Session.Refused
import Wireboard.Proofs.Registry.Basic
import Wireboard.Proofs.Registry.Refinement
import Wireboard.Proofs.Relabel.Basic
import Wireboard.Proofs.Relabel.Diagram
import Wireboard.Proofs.Relabel.Session
import Wireboard.Proofs.Relabel.Renaming
import Wireboard.Proofs.Number.Value
import Wireboard.Proofs.Number.Arithmetic
import Wireboard.Proofs.Number.Comparison
import Wireboard.Proofs.Number.Packing
import Wireboard.Proofs.Number.Rounding
import Wireboard.Proofs.Number.Nearest
import Wireboard.Proofs.Settings.Repaired
import Wireboard.Proofs.Session.Wiring
import Wireboard.Proofs.Session.Transitions
import Wireboard.Proofs.Session.Offset
import Wireboard.Proofs.Session.Preview
import Wireboard.Proofs.Rows.Order
import Wireboard.Proofs.Json.Number
import Wireboard.Proofs.Json.Quoted
import Wireboard.Proofs.Json.RoundTrip
import Wireboard.Proofs.Json.Record
import Wireboard.Proofs.Document.RoundTrip
import Wireboard.Proofs.Diagram.WellFormed
import Wireboard.Proofs.Session.WellFormed
import Wireboard.Proofs.Viewport.Exact
import Wireboard.Proofs.Session.Panning
import Wireboard.Proofs.Session.Dragging
import Wireboard.Proofs.Json.Grammar
import Wireboard.Proofs.Session.Dropping
import Wireboard.Proofs.Session.Clicking
import Wireboard.Proofs.Number.Reading
import Wireboard.Proofs.Number.ReadBack
import Wireboard.Proofs.Diagram.Confirming
import Wireboard.Proofs.Number.Typed
import Wireboard.Proofs.Param.Fields
import Wireboard.Proofs.Diagram.Toggling
import Wireboard.Proofs.Rows.Sync
import Wireboard.Proofs.Rows.Links
import Wireboard.Proofs.Session.Removal
import Wireboard.Proofs.Number.Root
import Wireboard.Proofs.Number.Scaling
import Wireboard.Proofs.Disc
import Wireboard.Proofs.Session.Target
import Wireboard.Proofs.Session.Releasing
import Wireboard.Proofs.Diagram.Refusals
import Wireboard.Proofs.Session.Zooming
import Wireboard.Proofs.Snapping
import Wireboard.Proofs.Params
import Wireboard.Proofs.Diagram.Fields
import Wireboard.Proofs.Diagram.Drawing
