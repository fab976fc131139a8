import Wireboard.Text.Hex

/-!
# Quoted strings

Strings between quotes, with escapes.  Writing escapes the quote, the backslash and the controls
below the space; reading undoes this and knows all other escapes of JSON as well.
-/

namespace Wireboard.Json.Quoted

/-- What a character is written as between quotes. -/
def escape (c : Char) : List Char :=
  if c = '"' then ['\\', '"']
  else if c = '\\' then ['\\', '\\']
  else if c = '\n' then ['\\', 'n']
  else if c = '\r' then ['\\', 'r']
  else if c = '\t' then ['\\', 't']
  else if c = '\x08' then ['\\', 'b']
  else if c = '\x0c' then ['\\', 'f']
  else if c.toNat < 32 then ['\\', 'u', '0', '0', hexChar (c.toNat / 16), hexChar (c.toNat % 16)]
  else [c]

/-- A text between quotes. -/
def encode (cs : List Char) : List Char := '"' :: cs.flatMap escape ++ ['"']

/-- The character that an escape of one letter names. -/
def simple? (c : Char) : Option Char :=
  match c with
  | '"' => some '"'
  | '\\' => some '\\'
  | '/' => some '/'
  | 'b' => some '\x08'
  | 'f' => some '\x0c'
  | 'n' => some '\n'
  | 'r' => some '\r'
  | 't' => some '\t'
  | _ => none

/-- A piece of a string between quotes: a character, plain or from an escape of one letter, or a
16-bit unit given by four digits. -/
inductive Piece where
  | char (c : Char)
  | unit (n : Nat)

/-- Reads pieces up to the closing quote, and what follows it. -/
def pieces : List Char → Option (List Piece × List Char)
  | [] => none
  | '"' :: r => some ([], r)
  | '\\' :: 'u' :: a :: b :: c :: d :: r =>
    match hexNumber? [a, b, c, d], pieces r with
    | some n, some (ps, r) => some (.unit n :: ps, r)
    | _, _ => none
  | '\\' :: e :: r =>
    match simple? e, pieces r with
    | some c, some (ps, r) => some (.char c :: ps, r)
    | _, _ => none
  | c :: r =>
    if c.toNat < 32 ∨ c = '\\' then none
    else (pieces r).map fun (ps, r) => (.char c :: ps, r)

/-- The unit is the first half of a surrogate pair. -/
def isHigh (n : Nat) : Bool := 0xD800 ≤ n && n < 0xDC00

/-- The unit is the second half of a surrogate pair. -/
def isLow (n : Nat) : Bool := 0xDC00 ≤ n && n < 0xE000

/-- The character of a surrogate pair. -/
def pair (high low : Nat) : Char := Char.ofNat (0x10000 + (high - 0xD800) * 0x400 + (low - 0xDC00))

/-- The text of the pieces, unless half of a surrogate pair stands alone. -/
def assemble : List Piece → Option (List Char)
  | [] => some []
  | .char c :: ps => (assemble ps).map (c :: ·)
  | .unit n :: ps =>
    if isHigh n then
      match ps with
      | .unit m :: ps => if isLow m then (assemble ps).map (pair n m :: ·) else none
      | _ => none
    else if isLow n then none
    else (assemble ps).map (Char.ofNat n :: ·)

/-- Reads a string after its opening quote: its text, if it stands for one, and what follows the
closing quote. -/
def body (cs : List Char) : Option (Option (List Char) × List Char) :=
  (pieces cs).map fun (ps, cs) => (assemble ps, cs)

end Wireboard.Json.Quoted
