/-!
# Words in texts
-/

namespace Wireboard

/-- The text has `w` somewhere in it. -/
def hasWord (w : List Char) : List Char → Bool
  | [] => w.isEmpty
  | c :: cs => w.isPrefixOf (c :: cs) || hasWord w cs

theorem hasWord_iff {w cs : List Char} : hasWord w cs = true ↔ w <:+: cs := by
  induction cs with
  | nil => simp [hasWord]
  | cons c cs ih => simp [hasWord, ih, List.infix_cons_iff]

end Wireboard
