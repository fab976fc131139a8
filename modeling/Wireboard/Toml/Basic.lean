/-!
# TOML values

The tree that a TOML document stands for.  Tables remember how they came about, because that decides
whether they may be added to later.
-/

namespace Wireboard

/-- How a table came about. -/
inductive Making where
  /-- By a header of its own. -/
  | header
  /-- By a header that only leads through it. -/
  | implied
  /-- By a dotted key. -/
  | dotted
  /-- Between braces. -/
  | inline
  deriving DecidableEq

/-- A TOML value.  Dates and times are told apart from all else, and from each other not at all. -/
inductive Toml where
  | string (s : String)
  | integer (n : Int)
  | float (x : Float)
  | boolean (b : Bool)
  | moment
  | array (items : List Toml)
  | table (making : Making) (entries : List (String × Toml))
  /-- Tables that share a header in double brackets. -/
  | tables (items : List (List (String × Toml)))

namespace Toml

/-- The entries of a table. -/
abbrev Entries := List (String × Toml)

/-- The value under a key. -/
def get? (es : Entries) (key : String) : Option Toml := (es.find? (·.1 == key)).map (·.2)

/-- The entries with another value under a key that is there. -/
def replace (es : Entries) (key : String) (v : Toml) : Entries :=
  es.map fun e => if e.1 == key then (key, v) else e

/-- Changes the table at the end of a path by `f`, which is told how that table came about.  Tables
that are not there are made on the way.  A path of a dotted key leads through tables only that have
no header of their own; no path leads into braces; a path through an array of tables leads into its
last one. -/
def alter (isDotted : Bool) (f : Making → Entries → Option Entries) :
    List String → Making → Entries → Option Entries
  | [], making, es => f making es
  | key :: path, _, es =>
    match get? es key with
    | none =>
      let making := if isDotted then Making.dotted else Making.implied
      (alter isDotted f path making []).map fun inner => es ++ [(key, .table making inner)]
    | some (.table making inner) =>
      if making = .inline ∨ (isDotted ∧ making = .header) then none
      else (alter isDotted f path making inner).map fun inner =>
        replace es key (.table making inner)
    | some (.tables items) =>
      match items.getLast? with
      | none => none
      | some inner => (alter isDotted f path .header inner).map fun inner =>
        replace es key (.tables (items.dropLast ++ [inner]))
    | some _ => none

/-- Adds a value under a key that is not there yet. -/
def insertNew (key : String) (v : Toml) (es : Entries) : Option Entries :=
  match get? es key with
  | none => some (es ++ [(key, v)])
  | some _ => none

/-- Adds a value under a key or a dotted key.  A dotted key adds only to tables that dotted keys
made. -/
def put (es : Entries) (path : List String) (key : String) (v : Toml) : Option Entries :=
  alter true (fun making es =>
    if making = .dotted ↔ path = [] then none else insertNew key v es) path .header es

/-- Adds the values under their keys, one after the other. -/
def putAll (es : Entries) (pairs : List (List String × String × Toml)) : Option Entries :=
  pairs.foldlM (fun es p => put es p.1 p.2.1 p.2.2) es

end Toml

end Wireboard
