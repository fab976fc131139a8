import Wireboard.Number.Binary
import Wireboard.Point

/-!
# The viewport

The viewport maps graph coordinates to screen coordinates by a scale and an offset,
`screen = graph * scale + offset`.  The scale stays between two bounds.
-/

namespace Wireboard

/-- A scale between two bounds, and the screen position of the graph's origin. -/
structure Viewport (α : Type) where
  minScale : α
  maxScale : α
  offset : Point α
  scale : α
  deriving DecidableEq

namespace Viewport

variable {α : Type} [Scalar α]

/-- The untransformed viewport with the given bounds, swapped when they stand the wrong way round.
There is none when a bound is not a number. -/
def ofBounds? (a b : α) : Option (Viewport α) :=
  if a ≤ b then some ⟨a, b, .origin, Scalar.clamp a b 1.0⟩
  else if b ≤ a then some ⟨b, a, .origin, Scalar.clamp b a 1.0⟩
  else none

/-- A tenth to three times. -/
def initial : Viewport α := ⟨0.1, 3.0, .origin, 1.0⟩

/-- `s` moved into the bounds.  The present scale stands in for what is not a number. -/
def clampScale (v : Viewport α) (s : α) : α :=
  if s == s then Scalar.clamp v.minScale v.maxScale s else v.scale

/-- Replaces offset and scale. -/
def place (v : Viewport α) (offset : Point α) (s : α) : Viewport α :=
  { v with offset, scale := v.clampScale s }

/-- The graph point under a screen point. -/
def toGraph (v : Viewport α) (p : Point α) : Point α := (p - v.offset).unscale v.scale

/-- The screen point of a graph point. -/
def toScreen (v : Viewport α) (p : Point α) : Point α := p.scale v.scale + v.offset

/-- Adds `delta` to the scale and keeps the graph point under `anchor` where it is.  Input that is
not finite is ignored. -/
def zoomAt (v : Viewport α) (anchor : Point α) (delta : α) : Viewport α :=
  if anchor.isFinite && Scalar.isFinite delta then
    let s := v.clampScale (v.scale + delta)
    { v with offset := anchor - (anchor - v.offset).scale (s / v.scale), scale := s }
  else v

/-- Multiplies the scale by `factor`, around `anchor`. -/
def zoomBy (v : Viewport α) (anchor : Point α) (factor : α) : Viewport α :=
  v.zoomAt anchor (v.scale * factor - v.scale)

/-- Moves the offset; a move that is not finite is ignored. -/
def pan (v : Viewport α) (d : Point α) : Viewport α :=
  if d.isFinite then { v with offset := v.offset + d } else v

/-- Offset zero and scale one, as far as the bounds allow. -/
def reset (v : Viewport α) : Viewport α :=
  { v with offset := .origin, scale := v.clampScale 1.0 }

/-- The scale in percent, as a 32-bit integer. -/
def percent (v : Viewport Float32) : Int :=
  Binary.roundInto (-Int.pow 2 31) (Int.pow 2 31 - 1) (v.scale * 100.0)

end Viewport

end Wireboard
