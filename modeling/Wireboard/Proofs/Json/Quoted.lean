import Wireboard.Json.Quoted

/-!
# Strings are read as they are written

Whatever characters a text has, what is written for it between quotes is read back as this text
(`body_encode`).  Every character is written so that it is read as one piece of its own, which needs
no other piece to stand for a character (`exists_piece`).
-/

namespace Wireboard

theorem hexNumber?_of_lt {n : Nat} (hn : n < 32) :
    hexNumber? ['0', '0', hexChar (n / 16), hexChar (n % 16)] = some n := by
  have hhigh := hexValue?_hexChar (n / 16) (by omega)
  have hlow := hexValue?_hexChar (n % 16) (by omega)
  have hzero : hexValue? '0' = some 0 := by decide
  simp [hexNumber?, hhigh, hlow, hzero]
  omega

namespace Json.Quoted

/-! ## the three kinds of pieces -/

theorem pieces_simple {e c : Char} (h : simple? e = some c) (r : List Char) :
    pieces ('\\' :: e :: r) = (pieces r).map fun q => (.char c :: q.1, q.2) := by
  have hu : ∀ a b c d r', e = 'u' → r = a :: b :: c :: d :: r' → False := by
    rintro a b c d r' rfl -
    cases h
  rw [pieces]
  · cases hr : pieces r <;> simp [h]
  · exact hu

theorem pieces_unit {a b c d : Char} {n : Nat} (h : hexNumber? [a, b, c, d] = some n)
    (r : List Char) :
    pieces ('\\' :: 'u' :: a :: b :: c :: d :: r) =
      (pieces r).map fun q => (.unit n :: q.1, q.2) := by
  rw [pieces]
  cases hr : pieces r <;> simp [h]

theorem pieces_char {c : Char} (hquote : c ≠ '"') (hslash : c ≠ '\\') (hc : ¬c.toNat < 32)
    (r : List Char) :
    pieces (c :: r) = (pieces r).map fun q => (.char c :: q.1, q.2) := by
  rw [pieces]
  · rw [if_neg (by simp [hc, hslash])]
  · exact hquote
  · exact fun _ _ _ _ _ h => absurd h hslash
  · exact fun _ _ h => absurd h hslash

/-! ## characters and texts -/

/-- Reading what is written for a character gives one piece, which stands for that character. -/
theorem exists_piece (c : Char) : ∃ p : Piece,
    (∀ r, pieces (escape c ++ r) = (pieces r).map fun q => (p :: q.1, q.2)) ∧
      ∀ ps, assemble (p :: ps) = (assemble ps).map (c :: ·) := by
  unfold escape
  split
  · next h => exact ⟨.char '"', pieces_simple rfl, h ▸ fun _ => rfl⟩
  split
  · next h => exact ⟨.char '\\', pieces_simple rfl, h ▸ fun _ => rfl⟩
  split
  · next h => exact ⟨.char '\n', pieces_simple rfl, h ▸ fun _ => rfl⟩
  split
  · next h => exact ⟨.char '\r', pieces_simple rfl, h ▸ fun _ => rfl⟩
  split
  · next h => exact ⟨.char '\t', pieces_simple rfl, h ▸ fun _ => rfl⟩
  split
  · next h => exact ⟨.char '\x08', pieces_simple rfl, h ▸ fun _ => rfl⟩
  split
  · next h => exact ⟨.char '\x0c', pieces_simple rfl, h ▸ fun _ => rfl⟩
  split
  · next hc =>
    refine ⟨.unit c.toNat, pieces_unit (hexNumber?_of_lt hc), fun ps => ?_⟩
    -- a control is no half of a surrogate pair, so it stands alone
    have hhigh : isHigh c.toNat = false := by simp [isHigh]; omega
    have hlow : isLow c.toNat = false := by simp [isLow]; omega
    rw [assemble.eq_def]
    simp [hhigh, hlow, Char.ofNat_toNat]
  · next hquote hslash _ _ _ _ _ hc => exact ⟨.char c, pieces_char hquote hslash hc, fun _ => rfl⟩

/-- What is written for a text is read back as this text, whatever follows the closing quote. -/
theorem body_encode (cs rest : List Char) :
    body (cs.flatMap escape ++ '"' :: rest) = some (some cs, rest) := by
  have hpieces : ∃ ps, pieces (cs.flatMap escape ++ '"' :: rest) = some (ps, rest) ∧
      assemble ps = some cs := by
    induction cs with
    | nil => exact ⟨[], by rw [List.flatMap_nil, List.nil_append, pieces], rfl⟩
    | cons c cs ih =>
      obtain ⟨ps, hps, htext⟩ := ih
      obtain ⟨p, hp, hc⟩ := exists_piece c
      refine ⟨p :: ps, ?_, ?_⟩
      · rw [List.flatMap_cons, List.append_assoc, hp, hps, Option.map_some]
      · rw [hc, htext, Option.map_some]
  obtain ⟨ps, hps, htext⟩ := hpieces
  simp only [body, hps, Option.map_some, htext]

/-- Half of a surrogate pair is read as a string that stands for no text. -/
theorem body_half (rest : List Char) :
    body ('\\' :: 'u' :: 'd' :: '8' :: '0' :: '0' :: '"' :: rest) = some (none, rest) := by
  have hn : hexNumber? ['d', '8', '0', '0'] = some 0xD800 := by decide
  have hend : pieces ('"' :: rest) = some ([], rest) := by rw [pieces]
  have hhalf : assemble [.unit 0xD800] = none := by decide
  simp [body, pieces_unit hn, hend, hhalf]

end Json.Quoted

end Wireboard
