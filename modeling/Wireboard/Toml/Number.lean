import Wireboard.Number.Literal
import Wireboard.Text.Hex
import Wireboard.Toml.Basic

/-!
# Numbers, dates and times of TOML

Digits may have an underscore between them.  Integers have 64 bits.
-/

namespace Wireboard.Toml

/-! ### Digits with underscores -/

/-- Digits, each perhaps after an underscore. -/
def moreDigits (base : Nat) : List Char → List Nat × List Char
  | [] => ([], [])
  | '_' :: c :: r =>
    match hexValue? c with
    | some d =>
      if d < base then (d :: (moreDigits base r).1, (moreDigits base r).2) else ([], '_' :: c :: r)
    | none => ([], '_' :: c :: r)
  | c :: r =>
    match hexValue? c with
    | some d => if d < base then (d :: (moreDigits base r).1, (moreDigits base r).2) else ([], c :: r)
    | none => ([], c :: r)

/-- Digits, the first of them without an underscore. -/
def digits? (base : Nat) : List Char → Option (List Nat × List Char)
  | '_' :: _ => none
  | cs =>
    match moreDigits base cs with
    | ([], _) => none
    | r => some r

/-- Decimal digits as such. -/
def decimals (ds : List Nat) : List Digit := ds.map Digit.last

/-- The number that digits write. -/
def numberOf (base : Nat) (ds : List Nat) : Nat := ds.foldl (fun n d => base * n + d) 0

/-! ### Integers and floats -/

/-- An integer of 64 bits. -/
def integer? (n : Int) : Option Toml :=
  if -Int.pow 2 63 ≤ n ∧ n < Int.pow 2 63 then some (.integer n) else none

/-- An integer in another base, after its mark. -/
def based? (base : Nat) (cs : List Char) : Option (Toml × List Char) := do
  let (ds, r) ← digits? base cs
  return (← integer? (numberOf base ds), r)

/-- The whole digits of a decimal number: a zero alone, or digits that do not begin with one. -/
def whole? : List Char → Option (List Nat × List Char)
  | '0' :: r => some ([0], r)
  | cs => digits? 10 cs

/-- The digits after a point. -/
def fraction? : List Char → Option (List Nat × List Char)
  | '.' :: r => digits? 10 r
  | r => some ([], r)

/-- The exponent, after its letter. -/
def exponent? (cs : List Char) : Option ((Option Sign × List Digit) × List Char) :=
  let (s, cs) : Option Sign × List Char := match cs with
    | '+' :: r => (some .plus, r)
    | '-' :: r => (some .minus, r)
    | r => (none, r)
  (digits? 10 cs).map fun (ds, r) => ((s, decimals ds), r)

/-- A float; one above the range is refused. -/
def float? (n : Literal) : Option Toml :=
  if n.nearest.isInf && !n.negative then none else some (.float n.nearest)

/-- A decimal number after its sign. -/
def decimal? (negative : Bool) (cs : List Char) : Option (Toml × List Char) := do
  let (whole, cs) ← whole? cs
  let (fraction, cs) ← fraction? cs
  let literal := Literal.mk negative (decimals whole) (decimals fraction)
  match cs with
  | 'e' :: r | 'E' :: r =>
    let (e, r) ← exponent? r
    return (← float? (literal (some e)), r)
  | r =>
    if fraction.isEmpty then
      let n : Int := numberOf 10 whole
      return (← integer? (if negative then -n else n), r)
    else return (← float? (literal none), r)

/-- A number after its sign, infinities and NaN included. -/
def signed? (negative : Bool) : List Char → Option (Toml × List Char)
  | 'i' :: 'n' :: 'f' :: r => some (.float (if negative then -1.0 / 0.0 else 1.0 / 0.0), r)
  | 'n' :: 'a' :: 'n' :: r => some (.float (0.0 / 0.0), r)
  | cs => decimal? negative cs

/-! ### Dates and times -/

/-- A number of `n` digits. -/
def fixed? : Nat → List Char → Option (Nat × List Char)
  | 0, cs => some (0, cs)
  | n + 1, c :: cs => do
    let d ← Digit.ofChar? c
    let (k, r) ← fixed? n cs
    return (d.val * Nat.pow 10 n + k, r)
  | _ + 1, [] => none

/-- A number of two digits in a range. -/
def part? (lo hi : Nat) (cs : List Char) : Option (Nat × List Char) := do
  let (n, r) ← fixed? 2 cs
  if lo ≤ n ∧ n ≤ hi then some (n, r) else none

/-- The rest after an expected character. -/
def expect? (c : Char) : List Char → Option (List Char)
  | d :: r => if c = d then some r else none
  | [] => none

/-- The days of a month. -/
def daysIn (year month : Nat) : Nat :=
  if month = 2 then
    if year % 4 = 0 ∧ (year % 100 ≠ 0 ∨ year % 400 = 0) then 29 else 28
  else if month ∈ [4, 6, 9, 11] then 30
  else 31

/-- The rest after a date. -/
def date? (cs : List Char) : Option (List Char) := do
  let (year, r) ← fixed? 4 cs
  let (month, r) ← part? 1 12 (← expect? '-' r)
  let (_, r) ← part? 1 (daysIn year month) (← expect? '-' r)
  return r

/-- The rest after a time of day. -/
def time? (cs : List Char) : Option (List Char) := do
  let (_, r) ← part? 0 23 cs
  let (_, r) ← part? 0 59 (← expect? ':' r)
  let (_, r) ← part? 0 60 (← expect? ':' r)
  match r with
  | '.' :: f => if (Digit.read f).1.isEmpty then return r else return (Digit.read f).2
  | r => return r

/-- The rest after an offset from universal time. -/
def offset? : List Char → Option (List Char)
  | 'Z' :: r | 'z' :: r => some r
  | '+' :: r | '-' :: r => do
    let (_, r) ← part? 0 23 r
    let (_, r) ← part? 0 59 (← expect? ':' r)
    return r
  | _ => none

/-- The rest after the time of day and the offset that follow a date. -/
def timeAfterDate? : List Char → Option (List Char)
  | c :: r =>
    if c = 'T' ∨ c = 't' ∨ c = ' ' then (time? r).map fun r => (offset? r).getD r else none
  | [] => none

/-- The rest after a date, a time, or both. -/
def moment? (cs : List Char) : Option (List Char) :=
  match date? cs with
  | some r => some ((timeAfterDate? r).getD r)
  | none => time? cs

/-- A number, a date or a time. -/
def number? (cs : List Char) : Option (Toml × List Char) :=
  match moment? cs with
  | some r => some (.moment, r)
  | none =>
    match cs with
    | '0' :: 'x' :: r => based? 16 r
    | '0' :: 'o' :: r => based? 8 r
    | '0' :: 'b' :: r => based? 2 r
    | '+' :: r => signed? false r
    | '-' :: r => signed? true r
    | r => signed? false r

end Wireboard.Toml
