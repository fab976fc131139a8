import Wireboard.Number.Literal
import Wireboard.Number.Shortest

/-!
# Layouts

How the shortest decimal of a number is put on paper: where plain notation ends, whether whole
numbers keep a `.0`, which way ties go.
-/

namespace Wireboard

open Float.Model (Format UnpackedFloat)

/-- The choices that a number format leaves open. -/
structure Layout where
  /-- The decimal exponents of the leading digit that are written without an exponent; `none`
  stands for all. -/
  plain : Option (Int × Int)
  /-- Whole numbers in plain notation end in `.0`. -/
  pointZero : Bool
  /-- Positive exponents carry a plus sign. -/
  plusSign : Bool
  tie : Tie

namespace Layout

/-- Plain digits, however many. -/
def display : Layout := ⟨none, false, false, .up⟩

/-- Plain from `0.0001` up to below `10 ^ 16`, with at least one place. -/
def exact : Layout := ⟨some (-4, 15), true, false, .up⟩

/-- JSON numbers of single precision. -/
def jsonSingle : Layout := ⟨some (-6, 12), true, true, .even⟩

/-- JSON numbers of double precision. -/
def jsonDouble : Layout := ⟨some (-5, 15), true, true, .even⟩

/-- The exponent `e` is written out in zeros. -/
def isPlain (l : Layout) (e : Int) : Bool :=
  match l.plain with
  | none => true
  | some (lo, hi) => lo ≤ e && e ≤ hi

/-- Plain notation. -/
def plainLiteral (l : Layout) (negative : Bool) (d : Decimal) : Literal :=
  let n := d.point.toNat
  let whole := if n = 0 then [Digit.zero]
    else d.digits.take n ++ List.replicate (n - d.digits.length) Digit.zero
  let fraction := List.replicate (-d.point).toNat Digit.zero ++ d.digits.drop n
  ⟨negative, whole, if fraction.isEmpty && l.pointZero then [Digit.zero] else fraction, none⟩

/-- One digit before the point, and an exponent. -/
def scientificLiteral (l : Layout) (negative : Bool) (d : Decimal) : Literal :=
  let e := d.point - 1
  let sign := if e < 0 then some .minus else if l.plusSign then some .plus else none
  ⟨negative, d.digits.take 1, d.digits.drop 1, some (sign, Digit.ofNat e.natAbs)⟩

/-- A decimal in this layout. -/
def literal (l : Layout) (negative : Bool) (d : Decimal) : Literal :=
  if l.isPlain (d.point - 1) then l.plainLiteral negative d else l.scientificLiteral negative d

/-- The literal of a number, if it is finite. -/
def finite? (l : Layout) (f : Format) : UnpackedFloat → Option Literal
  | .notANumber => none
  | .infinity _ => none
  | .zero s => some (l.literal (s == .negative) .zero)
  | .finite s m e _ => some (l.literal (s == .negative) (Decimal.shortest l.tie f m e))

/-- The literal of a finite single. -/
def single? (l : Layout) (x : Float32) : Option Literal := l.finite? .binary32 x.toModel.unpack

/-- The literal of a finite double. -/
def double? (l : Layout) (x : Float) : Option Literal := l.finite? .binary64 x.toModel.unpack

/-- The text of any number. -/
def text (l : Layout) (f : Format) (u : UnpackedFloat) : List Char :=
  match l.finite? f u, u with
  | some n, _ => n.text
  | none, .infinity .positive => "inf".toList
  | none, .infinity .negative => "-inf".toList
  | none, _ => "NaN".toList

/-- The text of a single. -/
def singleText (l : Layout) (x : Float32) : String :=
  .ofList (l.text .binary32 x.toModel.unpack)

/-- The text of a double. -/
def doubleText (l : Layout) (x : Float) : String :=
  .ofList (l.text .binary64 x.toModel.unpack)

end Layout

end Wireboard
