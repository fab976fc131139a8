/-!
# Decimal digits

Runs of decimal digits, most significant first, and the natural numbers they write.
-/

namespace Wireboard

/-- A decimal digit. -/
abbrev Digit := Fin 10

namespace Digit

/-- The digit `0`. -/
def zero : Digit := 0

/-- The last digit of a number. -/
def last (n : Nat) : Digit := Fin.ofNat 10 n

/-- `'0'` to `'9'`. -/
def toChar (d : Digit) : Char := Char.ofNat (48 + d.val)

/-- The digit that a character is, ASCII digits only. -/
def ofChar? (c : Char) : Option Digit :=
  if h : 48 ≤ c.toNat ∧ c.toNat < 58 then some ⟨c.toNat - 48, by omega⟩ else none

@[simp] theorem ofChar?_toChar : ∀ d : Digit, ofChar? d.toChar = some d := by decide

/-- The number that a run of digits writes; no digits write zero. -/
def value (ds : List Digit) : Nat := ds.foldl (fun n d => 10 * n + d.val) 0

/-- The digits of `n`; zero has one. -/
def ofNat (n : Nat) : List Digit :=
  if h : n < 10 then [⟨n, h⟩] else ofNat (n / 10) ++ [⟨n % 10, Nat.mod_lt n (by decide)⟩]

theorem value_append_singleton (ds : List Digit) (d : Digit) :
    value (ds ++ [d]) = 10 * value ds + d.val := by
  simp [value]

theorem value_ofNat (n : Nat) : value (ofNat n) = n := by
  fun_induction ofNat n with
  | case1 n h => simp [value]
  | case2 n h ih => rw [value_append_singleton, ih]; simp only; omega

/-- The digits that a text begins with, and what follows them. -/
def read : List Char → List Digit × List Char
  | [] => ([], [])
  | c :: cs =>
    match ofChar? c with
    | some d => (d :: (read cs).1, (read cs).2)
    | none => ([], c :: cs)

/-- The characters of a run of digits. -/
def text (ds : List Digit) : List Char := ds.map toChar

end Digit

end Wireboard
