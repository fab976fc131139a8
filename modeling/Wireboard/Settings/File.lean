import Wireboard.Settings.Basic
import Wireboard.Toml.Parser

/-!
# Settings files

Settings in TOML.  A file names the measures that it changes; other keys and tables in it are of no
interest.
-/

namespace Wireboard.Settings

open Toml (Entries get?)

/-- A measure: a number of either kind, or the one there is if the file has none. -/
def measure? (es : Entries) (key : String) (present : Float32) : Option Float32 :=
  match get? es key with
  | none => some present
  | some (.float x) => some (Binary.toSingle x)
  | some (.integer n) => some (.ofInt n)
  | some _ => none

/-- The value says nothing but that it is there. -/
def isEmptyValue : Toml → Bool
  | .array [] => true
  | .table _ [] => true
  | .tables [] => true
  | _ => false

/-- The layer that a table names: its one key is the tag, and there is nothing under it. -/
def layerOfEntries? : Entries → Option Layer
  | [(tag, v)] => if isEmptyValue v then Layer.ofTag? tag else none
  | _ => none

/-- The layer that a value names. -/
def layerOfToml? : Toml → Option Layer
  | .string s => Layer.ofTag? s
  | .table _ es => layerOfEntries? es
  | _ => none

/-- The layers that cannot be dropped. -/
def disabled? (es : Entries) : Option (List Layer) :=
  match get? es "disabled_kinds" with
  | none => some []
  | some (.array items) => items.mapM layerOfToml?
  | some (.tables items) => items.mapM layerOfEntries?
  | some _ => none

/-- The settings that a root table stands for. -/
def ofEntries? (es : Entries) : Option (Settings Float32) := do
  let s : Settings Float32 := initial
  return {
    minScale := ← measure? es "min_scale" s.minScale
    maxScale := ← measure? es "max_scale" s.maxScale
    wheelGain := ← measure? es "wheel_sensitivity" s.wheelGain
    zoomStep := ← measure? es "zoom_step" s.zoomStep
    snapRadius := ← measure? es "snap_radius" s.snapRadius
    pinGap := ⟨← measure? es "handle_offset_x" s.pinGap.x,
      ← measure? es "handle_offset_y" s.pinGap.y⟩
    fallbackWidth := ← measure? es "fallback_node_width" s.fallbackWidth
    dropGrip := ⟨← measure? es "drop_anchor_x" s.dropGrip.x,
      ← measure? es "drop_anchor_y" s.dropGrip.y⟩
    disabled := ← disabled? es }

/-- The settings in a file, repaired. -/
def ofText? (s : String) : Option (Settings Float32) :=
  ((Toml.parse? s).bind ofEntries?).map repaired

end Wireboard.Settings
