import Wireboard.Number.Digit
import Wireboard.Text.Blank

/-!
# Node ids

New nodes are named by a supply of candidate ids.  A diagram draws from it in order and passes over
the candidates that some node bears already.
-/

namespace Wireboard

/-- Draws candidates until one is not in use, and gives back the rest of the supply. -/
def drawFresh (used : List String) : List String → Option (String × List String)
  | [] => none
  | c :: cs => if used.contains c then drawFresh used cs else some (c, cs)

/-- The node called `holder` may be given the id `new`: trimmed, it is not empty, and no other live
node bears it. -/
def isValidId (new holder : String) (live : List String) : Bool :=
  trimmed new != "" && !live.any fun id => id == trimmed new && id != holder

/-! ### A supply of ids -/

/-- The characters of generated ids. -/
def idAlphabet : List Char := "ABCDEFGHIJKLMNOPQRSTUVWXYZabcdefghijklmnopqrstuvwxyz0123456789".toList

/-- The length of generated ids. -/
def idLength : Nat := 8

/-- The last `n` places of `k` in the alphabet's own numerals. -/
def idPlaces (k : Nat) : Nat → List Char
  | 0 => []
  | n + 1 => idPlaces (k / idAlphabet.length) n ++ [idAlphabet.getD (k % idAlphabet.length) 'A']

/-- The `k`-th id. -/
def generatedId (k : Nat) : String := .ofList (idPlaces k idLength)

/-- A supply of `n` ids that starts at a place given by `seed`.  They are distinct as long as `n`
does not exceed the number of ids there are. -/
def generatedIds (seed n : Nat) : List String := (List.range n).map fun k => generatedId (seed + k)

end Wireboard
