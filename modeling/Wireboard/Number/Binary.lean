/-!
# Binary floating point, read exactly

A finite binary number is `± m · 2 ^ e`.  This module moves such numbers between the two precisions
and to the integers; decimal text is the business of `Number.Shortest` and `Number.Reading`.
-/

namespace Wireboard.Binary

open Float.Model (UnpackedFloat Format)

/-- A double rounded to single precision, to nearest, ties to even.  What is beyond the largest
single becomes infinite. -/
def toSingle (x : Float) : Float32 :=
  .ofModel (.pack (match x.toModel.unpack with
    | .finite s m e _ => UnpackedFloat.round .binary32 s m e
    | u => u))

/-- The natural number nearest to `m · 2 ^ e`, halves going up. -/
def roundNat (m : Nat) (e : Int) : Nat :=
  if 0 ≤ e then m * Nat.pow 2 e.toNat
  else (2 * m + Nat.pow 2 (-e).toNat) / Nat.pow 2 ((-e).toNat + 1)

/-- The integer nearest to `x`, halves going away from zero, cut to the range `lo … hi`.  A NaN
counts as zero. -/
def roundInto (lo hi : Int) (x : Float32) : Int :=
  match x.toModel.unpack with
  | .notANumber => 0
  | .zero _ => 0
  | .infinity .positive => hi
  | .infinity .negative => lo
  | .finite .positive m e _ => min hi (roundNat m e)
  | .finite .negative m e _ => max lo (-(roundNat m e : Int))

end Wireboard.Binary
