import Wireboard.Scalar

/-!
# Points

A point of the plane, in graph or in screen coordinates.
-/

namespace Wireboard

/-- A point, or the vector from the origin to it. -/
structure Point (α : Type) where
  x : α
  y : α
  deriving DecidableEq

namespace Point

variable {α : Type} [Scalar α]

instance : Add (Point α) := ⟨fun p q => ⟨p.x + q.x, p.y + q.y⟩⟩
instance : Sub (Point α) := ⟨fun p q => ⟨p.x - q.x, p.y - q.y⟩⟩

/-- Numerical equality: the two zeros are equal, a NaN equals nothing. -/
instance : BEq (Point α) := ⟨fun p q => p.x == q.x && p.y == q.y⟩

/-- The origin. -/
def origin : Point α := ⟨0.0, 0.0⟩

/-- `p` multiplied by `k`. -/
def scale (p : Point α) (k : α) : Point α := ⟨p.x * k, p.y * k⟩

/-- `p` divided by `k`. -/
def unscale (p : Point α) (k : α) : Point α := ⟨p.x / k, p.y / k⟩

/-- The squared length of the vector from `q` to `p`. -/
def distSq (p q : Point α) : α :=
  (p.x - q.x) * (p.x - q.x) + (p.y - q.y) * (p.y - q.y)

/-- The Euclidean distance. -/
def dist (p q : Point α) : α := Scalar.sqrt (distSq p q)

/-- Both coordinates are finite. -/
def isFinite (p : Point α) : Bool := Scalar.isFinite p.x && Scalar.isFinite p.y

@[simp] theorem add_x (p q : Point α) : (p + q).x = p.x + q.x := rfl
@[simp] theorem add_y (p q : Point α) : (p + q).y = p.y + q.y := rfl
@[simp] theorem sub_x (p q : Point α) : (p - q).x = p.x - q.x := rfl
@[simp] theorem sub_y (p q : Point α) : (p - q).y = p.y - q.y := rfl

end Point

end Wireboard
