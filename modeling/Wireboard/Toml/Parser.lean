import Wireboard.Toml.Number
import Wireboard.Toml.Text

/-!
# Reading TOML

TOML 1.0.  Values nest to a depth below `depthLimit`, and keys have fewer parts than that.  As in the
readers of JSON, a bound on the number of steps goes along, for which the length of the text is
enough.
-/

namespace Wireboard.Toml

/-- Arrays and braces nest, and keys are long, to less than this. -/
def depthLimit : Nat := 80

/-- Drops blanks, comments and line breaks. -/
def skipLines : Nat → List Char → Option (List Char)
  | 0, _ => none
  | n + 1, cs =>
    match skip cs with
    | '#' :: r => (newline? (r.dropWhile isVisible)).bind (skipLines n)
    | '\n' :: r => skipLines n r
    | '\r' :: r => (newline? ('\r' :: r)).bind (skipLines n)
    | r => some r

mutual

/-- A value at a depth of nesting. -/
def value? : Nat → Nat → List Char → Option (Toml × List Char)
  | 0, _, _ => none
  | n + 1, depth, cs =>
    match cs with
    | '"' :: _ | '\'' :: _ => (string? cs).map fun (s, r) => (.string (.ofList s), r)
    | '[' :: r =>
      if depthLimit ≤ depth + 1 then none
      else (items? n (depth + 1) r).map fun (vs, r) => (.array vs, r)
    | '{' :: r =>
      if depthLimit ≤ depth + 1 then none
      else match skip r with
        | '}' :: r => some (.table .inline [], r)
        | r => do
          let (ps, r) ← pairs? n (depth + 1) r
          return (.table .inline (← putAll [] ps), r)
    | 't' :: 'r' :: 'u' :: 'e' :: r => some (.boolean true, r)
    | 'f' :: 'a' :: 'l' :: 's' :: 'e' :: r => some (.boolean false, r)
    | cs => number? cs

/-- Items of an array and its closing bracket.  A comma may follow the last item. -/
def items? : Nat → Nat → List Char → Option (List Toml × List Char)
  | 0, _, _ => none
  | n + 1, depth, cs =>
    match skipLines n cs with
    | some (']' :: r) => some ([], r)
    | some r =>
      match value? n depth r with
      | none => none
      | some (v, r) =>
        match skipLines n r with
        | some (',' :: r) => (items? n depth r).map fun (vs, r) => (v :: vs, r)
        | some (']' :: r) => some ([v], r)
        | _ => none
    | none => none

/-- Keys with their values between braces, and the closing brace. -/
def pairs? : Nat → Nat → List Char → Option (List (List String × String × Toml) × List Char)
  | 0, _, _ => none
  | n + 1, depth, cs =>
    match key? (depthLimit - 1) cs with
    | some (path, k, '=' :: r) =>
      match value? n depth (skip r) with
      | none => none
      | some (v, r) =>
        match skip r with
        | ',' :: r => (pairs? n depth r).map fun (ps, r) => ((path, k, v) :: ps, r)
        | '}' :: r => some ([(path, k, v)], r)
        | _ => none
    | _ => none

end

/-- A line of a document that is not blank. -/
inductive Line where
  | pair (path : List String) (key : String) (v : Toml)
  | tableHeader (path : List String) (key : String)
  | arrayHeader (path : List String) (key : String)

/-- The rest after the brackets that close a header. -/
def closing? : Nat → List Char → Option (List Char)
  | 0, r => lineEnd? r
  | n + 1, ']' :: r => closing? n r
  | _ + 1, _ => none

/-- The lines of a document. -/
def lines? : Nat → List Char → Option (List Line)
  | 0, _ => none
  | n + 1, cs =>
    match skip cs with
    | [] => some []
    | '#' :: r => (lineEnd? ('#' :: r)).bind (lines? n)
    | '\n' :: r => lines? n r
    | '\r' :: r => (newline? ('\r' :: r)).bind (lines? n)
    | '[' :: '[' :: r => do
      let (path, k, r) ← key? (depthLimit - 1) r
      return .arrayHeader path k :: (← lines? n (← closing? 2 r))
    | '[' :: r => do
      let (path, k, r) ← key? (depthLimit - 1) r
      return .tableHeader path k :: (← lines? n (← closing? 1 r))
    | r => do
      let (path, k, r) ← key? (depthLimit - 1) r
      let (v, r) ← value? (n + 1) 0 (skip (← expect? '=' r))
      return .pair path k v :: (← lines? n (← lineEnd? r))

/-! ### From lines to tables -/

/-- The keys and values up to the next header, and the lines from there on. -/
def pairsAhead : List Line → List (List String × String × Toml) × List Line
  | .pair path k v :: ls => ((path, k, v) :: (pairsAhead ls).1, (pairsAhead ls).2)
  | ls => ([], ls)

/-- Opens the table of a header and fills it.  The table must be new, or else have been led through
only. -/
def fillTable (path : List String) (k : String) (pairs : List (List String × String × Toml))
    (root : Entries) : Option Entries :=
  alter false (fun _ es =>
    match get? es k with
    | none => do insertNew k (.table .header (← putAll [] pairs)) es
    | some (.table .implied inner) => do
      return replace es k (.table .header (← putAll inner pairs))
    | some _ => none) path .header root

/-- Opens one more table under a header in double brackets and fills it. -/
def fillNext (path : List String) (k : String) (pairs : List (List String × String × Toml))
    (root : Entries) : Option Entries :=
  alter false (fun _ es =>
    match get? es k with
    | none => do insertNew k (.tables [← putAll [] pairs]) es
    | some (.tables items) => do
      return replace es k (.tables (items ++ [← putAll [] pairs]))
    | some _ => none) path .header root

/-- Adds the tables of the remaining headers to the root table. -/
def build : Nat → List Line → Entries → Option Entries
  | 0, _, _ => none
  | _ + 1, [], root => some root
  | n + 1, .tableHeader path k :: ls, root =>
    (fillTable path k (pairsAhead ls).1 root).bind (build n (pairsAhead ls).2)
  | n + 1, .arrayHeader path k :: ls, root =>
    (fillNext path k (pairsAhead ls).1 root).bind (build n (pairsAhead ls).2)
  | n + 1, .pair path k v :: ls, root => (put root path k v).bind (build n ls)

/-- The root table of a document.  A byte order mark in front of it is passed over. -/
def parse? (s : String) : Option Entries :=
  let cs := match s.toList with
    | '\uFEFF' :: cs => cs
    | cs => cs
  (lines? (cs.length + 1) cs).bind fun ls => build (ls.length + 1) ls []

end Wireboard.Toml
