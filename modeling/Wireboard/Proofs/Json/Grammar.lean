import Wireboard.Proofs.Json.RoundTrip

/-!
# The grammar of JSON

The grammar itself, rule by rule, and that the reader knows all of it and nothing else
(`parse?_eq_some_iff`).  A rule relates a text to the value that it begins with, and to what follows
this.

* `sound`, by induction on the number of steps: what the reader takes for a value is one;
* `Value.value_eq`, by induction on the derivation: every value is read, in no more steps than it has
  characters, unless it is a number with more of a number after it (`Stops`).  After a value inside
  another one come blanks, a comma or a bracket, and so this is no loss.
-/

namespace Wireboard.Json

/-! ## the rules -/

namespace Grammar

/-- Blanks. -/
inductive Gap : List Char → List Char → Prop
  | none (rest : List Char) : Gap rest rest
  | blank {c : Char} {cs rest : List Char} (hc : c ∈ [' ', '\t', '\n', '\r']) (h : Gap cs rest) :
      Gap (c :: cs) rest

/-- The digits before the point: zero, or digits of which the first is not zero. -/
inductive Whole : List Digit → Prop
  | zero : Whole [0]
  | digits {d : Digit} (hd : d ≠ 0) (ds : List Digit) : Whole (d :: ds)

/-- A point with digits after it, or nothing. -/
inductive Fraction : List Char → List Digit → List Char → Prop
  | none (rest : List Char) : Fraction rest [] rest
  | digits {ds : List Digit} (hds : ds ≠ []) (rest : List Char) :
      Fraction ('.' :: (Digit.text ds ++ rest)) ds rest

/-- The letter `e`, in either case, a sign or none, and digits; or nothing. -/
inductive Exponent : List Char → Option (Option Sign × List Digit) → List Char → Prop
  | none {rest : List Char} : Exponent rest none rest
  | digits {e : Char} (he : e = 'e' ∨ e = 'E') (sign : Option Sign) {ds : List Digit}
      (hds : ds ≠ []) (rest : List Char) :
      Exponent (e :: (signText sign ++ Digit.text ds ++ rest)) (some (sign, ds)) rest

/-- A number. -/
inductive Number : List Char → Literal → List Char → Prop
  | mk (negative : Bool) {whole fraction : List Digit} {exponent : Option (Option Sign × List Digit)}
      {cs cs' rest : List Char} (hwhole : Whole whole) (hfraction : Fraction cs fraction cs')
      (hexponent : Exponent cs' exponent rest) :
      Number ((if negative then ['-'] else []) ++ Digit.text whole ++ cs)
        ⟨negative, whole, fraction, exponent⟩ rest

/-- The escapes of one letter, and the characters that they stand for. -/
def escapes : List (Char × Char) :=
  [('"', '"'), ('\\', '\\'), ('/', '/'), ('b', '\x08'), ('f', '\x0c'), ('n', '\n'), ('r', '\r'),
    ('t', '\t')]

/-- What stands between quotes, and the closing quote: characters from the space on, other than the
quote and the backslash; escapes of one letter; units given by four hexadecimal digits. -/
inductive Chars : List Char → List Quoted.Piece → List Char → Prop
  | close (rest : List Char) : Chars ('"' :: rest) [] rest
  | plain {c : Char} {cs rest : List Char} {ps : List Quoted.Piece} (hquote : c ≠ '"')
      (hslash : c ≠ '\\') (hc : 32 ≤ c.toNat) (h : Chars cs ps rest) :
      Chars (c :: cs) (.char c :: ps) rest
  | escape {e c : Char} {cs rest : List Char} {ps : List Quoted.Piece} (he : (e, c) ∈ escapes)
      (h : Chars cs ps rest) : Chars ('\\' :: e :: cs) (.char c :: ps) rest
  | unit {a b c d : Char} {n : Nat} {cs rest : List Char} {ps : List Quoted.Piece}
      (hn : hexNumber? [a, b, c, d] = some n) (h : Chars cs ps rest) :
      Chars ('\\' :: 'u' :: a :: b :: c :: d :: cs) (.unit n :: ps) rest

/-- The text that pieces stand for, if they do. -/
def textOf (ps : List Quoted.Piece) : Option String := (Quoted.assemble ps).map String.ofList

mutual

/-- A value. -/
inductive Value : List Char → Json → List Char → Prop
  | null (rest : List Char) : Value ('n' :: 'u' :: 'l' :: 'l' :: rest) .null rest
  | true (rest : List Char) : Value ('t' :: 'r' :: 'u' :: 'e' :: rest) (.bool true) rest
  | false (rest : List Char) : Value ('f' :: 'a' :: 'l' :: 's' :: 'e' :: rest) (.bool false) rest
  | num {cs rest : List Char} {n : Literal} (h : Number cs n rest) : Value cs (.num n) rest
  | str {cs rest : List Char} {ps : List Quoted.Piece} (h : Chars cs ps rest) :
      Value ('"' :: cs) (.str (textOf ps)) rest
  | emptyArr {cs rest : List Char} (h : Gap cs (']' :: rest)) : Value ('[' :: cs) (.arr []) rest
  | arr {cs rest : List Char} {vs : List Json} (h : Items cs vs rest) :
      Value ('[' :: cs) (.arr vs) rest
  | emptyObj {cs rest : List Char} (h : Gap cs ('}' :: rest)) : Value ('{' :: cs) (.obj []) rest
  | obj {cs rest : List Char} {ms : List (Option String × Json)} (h : Members cs ms rest) :
      Value ('{' :: cs) (.obj ms) rest

/-- Values with commas between them, and the closing bracket. -/
inductive Items : List Char → List Json → List Char → Prop
  | last {cs cs₁ cs₂ rest : List Char} {v : Json} (gap : Gap cs cs₁) (hv : Value cs₁ v cs₂)
      (stop : Gap cs₂ (']' :: rest)) : Items cs [v] rest
  | more {cs cs₁ cs₂ cs₃ rest : List Char} {v : Json} {vs : List Json} (gap : Gap cs cs₁)
      (hv : Value cs₁ v cs₂) (comma : Gap cs₂ (',' :: cs₃)) (h : Items cs₃ vs rest) :
      Items cs (v :: vs) rest

/-- Names and values with commas between them, and the closing brace. -/
inductive Members : List Char → List (Option String × Json) → List Char → Prop
  | last {cs cs₁ cs₂ cs₃ cs₄ cs₅ rest : List Char} {ps : List Quoted.Piece} {v : Json}
      (quote : Gap cs ('"' :: cs₁)) (name : Chars cs₁ ps cs₂) (colon : Gap cs₂ (':' :: cs₃))
      (gap : Gap cs₃ cs₄) (hv : Value cs₄ v cs₅) (stop : Gap cs₅ ('}' :: rest)) :
      Members cs [(textOf ps, v)] rest
  | more {cs cs₁ cs₂ cs₃ cs₄ cs₅ cs₆ rest : List Char} {ps : List Quoted.Piece} {v : Json}
      {ms : List (Option String × Json)} (quote : Gap cs ('"' :: cs₁)) (name : Chars cs₁ ps cs₂)
      (colon : Gap cs₂ (':' :: cs₃)) (gap : Gap cs₃ cs₄) (hv : Value cs₄ v cs₅)
      (comma : Gap cs₅ (',' :: cs₆)) (h : Members cs₆ ms rest) :
      Members cs ((textOf ps, v) :: ms) rest

end

/-- A text that is a value, with blanks around it. -/
inductive Text : List Char → Json → Prop
  | mk {cs cs₁ cs₂ : List Char} {v : Json} (before : Gap cs cs₁) (hv : Value cs₁ v cs₂)
      (after : Gap cs₂ []) : Text cs v

end Grammar

open Grammar

/-! ## blanks -/

theorem isGap_iff {c : Char} : isGap c = true ↔ c ∈ [' ', '\t', '\n', '\r'] := by
  simp [isGap, or_assoc]

theorem gap_skip (cs : List Char) : Gap cs (skip cs) := by
  induction cs with
  | nil => exact .none _
  | cons c cs ih =>
    cases hc : isGap c with
    | true =>
      rw [skip, List.dropWhile_cons_of_pos hc]
      exact .blank (isGap_iff.1 hc) ih
    | false =>
      rw [skip_cons hc]
      exact .none _

theorem Grammar.Gap.skip_eq {cs rest : List Char} (h : Gap cs rest) : skip cs = skip rest := by
  induction h with
  | none rest => rfl
  | blank hc h ih =>
    rw [← ih, skip, List.dropWhile_cons_of_pos (isGap_iff.2 hc)]
    rfl

theorem Grammar.Gap.length_le {cs rest : List Char} (h : Gap cs rest) :
    rest.length ≤ cs.length := by
  induction h with
  | none rest => exact le_rfl
  | blank hc h ih => exact ih.trans (Nat.le_succ _)

theorem Grammar.Gap.length_lt {c : Char} {cs rest : List Char} (h : Gap cs (c :: rest)) :
    rest.length < cs.length :=
  Nat.lt_of_succ_le h.length_le

theorem Grammar.Gap.stops {cs rest : List Char} (h : Gap cs rest) (hrest : Stops rest) :
    Stops cs := by
  cases h with
  | none => exact hrest
  | blank hc h =>
    intro c hc'
    obtain rfl := Option.some.inj hc'
    simp only [List.mem_cons, List.not_mem_nil, or_false] at hc
    rcases hc with rfl | rfl | rfl | rfl <;> decide

/-- What comes before a comma or a closing bracket can be read to its end. -/
theorem Grammar.Gap.stops_of_mem {c : Char} {cs rest : List Char} (h : Gap cs (c :: rest))
    (hc : c ∈ [',', '\n', ']', '}']) : Stops cs :=
  h.stops fun _ hx => Option.some.inj hx ▸ no_number_of_mem hc

theorem Grammar.Gap.value_eq {cs rest : List Char} (h : Gap cs rest) (n : Nat) :
    value n cs = value n rest := by
  cases n with
  | zero => rfl
  | succ n => simp only [value, h.skip_eq]

/-! ## numbers -/

theorem whole_iff {ds : List Digit} :
    Whole ds ↔ ds ≠ [] ∧ (ds.head? = some Digit.zero → ds.length = 1) := by
  constructor
  · rintro (_ | ⟨hd, ds⟩)
    · exact ⟨by simp, fun _ => rfl⟩
    · exact ⟨by simp, fun h => absurd (Option.some.inj h) hd⟩
  · rintro ⟨hne, hzero⟩
    obtain ⟨d, ds, rfl⟩ := List.exists_cons_of_ne_nil hne
    by_cases hd : d = 0
    · obtain rfl : ds = [] := by simpa using hzero (by rw [hd]; rfl)
      exact hd ▸ .zero
    · exact .digits hd ds

theorem readExponent_sound {cs rest : List Char} {e : Option (Option Sign × List Digit)}
    (h : Literal.readExponent cs = some (e, rest)) : Exponent cs e rest := by
  unfold Literal.readExponent at h
  split at h
  · cases h
    exact .none
  · next c cs =>
    split at h
    · next he =>
      split at h
      next sign body hsign =>
      have hcs : cs = signText sign ++ body := by
        split at hsign <;> cases hsign <;> rfl
      have htext := Digit.text_read body
      split at h
      · cases h
      · next ds cs' hne hread =>
        cases h
        rw [hread] at htext
        rw [hcs, ← htext, ← List.append_assoc]
        exact .digits he sign (fun hds => hne hds) rest
    · cases h
      exact .none

theorem number_sound {cs rest : List Char} {n : Literal} (h : number cs = some (n, rest)) :
    Number cs n rest := by
  unfold number at h
  split at h
  next negative body hsign =>
  have hcs : cs = (if negative then ['-'] else []) ++ body := by
    split at hsign <;> cases hsign <;> rfl
  have hbody := Digit.text_read body
  split at h
  next whole cs₁ hread =>
  rw [hread] at hbody
  split at h
  · cases h
  · next hwhole =>
    split at h
    next point fraction cs₂ hpoint =>
    split at h
    · cases h
    · next hdigits =>
      have hfraction : Fraction cs₁ fraction cs₂ := by
        split at hpoint
        · next cs₁ =>
          cases hpoint
          have htext := Digit.text_read cs₁
          have hds : (Digit.read cs₁).1 ≠ [] := by simpa using hdigits
          have hfraction := Fraction.digits hds (Digit.read cs₁).2
          rwa [htext] at hfraction
        · cases hpoint
          exact .none _
      obtain ⟨⟨exponent, rest'⟩, hexponent, hn⟩ := Option.map_eq_some_iff.1 h
      cases hn
      rw [hcs, ← hbody, ← List.append_assoc]
      exact .mk negative (whole_iff.2 (by simpa using hwhole)) hfraction
        (readExponent_sound hexponent)

theorem Grammar.Fraction.eq_append {cs rest : List Char} {ds : List Digit}
    (h : Fraction cs ds rest) : cs = fractionText ds ++ rest := by
  cases h with
  | none => rfl
  | digits hds =>
    obtain ⟨d, ds, rfl⟩ := List.exists_cons_of_ne_nil hds
    rfl

theorem Grammar.Exponent.readExponent_eq {cs rest : List Char}
    {e : Option (Option Sign × List Digit)} (h : Exponent cs e rest) (hrest : Stops rest) :
    Literal.readExponent cs = some (e, rest) := by
  cases h with
  | none => exact readExponent_of_stops hrest
  | digits he sign hds => exact readExponent_digits he sign hds hrest.ends

theorem no_digit_of_exponent {cs rest : List Char} {e : Option (Option Sign × List Digit)}
    (h : Exponent cs e rest) (hrest : Stops rest) :
    ∀ c ∈ cs.head?, Digit.ofChar? c = none ∧ c ≠ '.' := by
  cases h with
  | none => exact fun c hc => ⟨(hrest c hc).1, (hrest c hc).2.1⟩
  | digits he =>
    intro c hc
    obtain rfl := Option.some.inj hc
    rcases he with rfl | rfl <;> decide

/-- A number is read up to its end, unless a longer one can be read. -/
theorem Grammar.Number.number_eq {cs rest : List Char} {n : Literal} (h : Number cs n rest)
    (hrest : Stops rest) : number cs = some (n, rest) := by
  cases h with
  | mk negative hwhole hfraction hexponent =>
    obtain ⟨hne, hzero⟩ := whole_iff.1 hwhole
    rw [hfraction.eq_append, ← List.append_assoc]
    exact number_append negative hne hzero (hexponent.readExponent_eq hrest)
      (no_digit_of_exponent hexponent hrest)

theorem Grammar.Exponent.length_le {cs rest : List Char} {e : Option (Option Sign × List Digit)}
    (h : Exponent cs e rest) : rest.length ≤ cs.length := by
  cases h with
  | none => exact le_rfl
  | digits => simp only [List.length_cons, List.length_append]; omega

theorem Grammar.Number.length_lt {cs rest : List Char} {n : Literal} (h : Number cs n rest) :
    rest.length < cs.length := by
  cases h with
  | @mk negative whole fraction exponent cs cs' rest hwhole hfraction hexponent =>
    have hdigits : 0 < (Digit.text whole).length := by
      rw [Digit.text, List.length_map]
      exact List.length_pos_iff.2 (whole_iff.1 hwhole).1
    have hle := hexponent.length_le
    rw [hfraction.eq_append]
    simp only [List.length_append]
    omega

/-! ## strings -/

theorem simple?_eq_some_iff {e c : Char} : Quoted.simple? e = some c ↔ (e, c) ∈ escapes := by
  constructor
  · intro h
    unfold Quoted.simple? at h
    split at h <;> cases h <;> decide
  · intro h
    simp only [escapes, List.mem_cons, Prod.mk.injEq, List.not_mem_nil, or_false] at h
    rcases h with ⟨rfl, rfl⟩ | ⟨rfl, rfl⟩ | ⟨rfl, rfl⟩ | ⟨rfl, rfl⟩ | ⟨rfl, rfl⟩ | ⟨rfl, rfl⟩ |
      ⟨rfl, rfl⟩ | ⟨rfl, rfl⟩ <;> rfl

theorem pieces_sound {cs rest : List Char} {ps : List Quoted.Piece}
    (h : Quoted.pieces cs = some (ps, rest)) : Chars cs ps rest := by
  fun_induction Quoted.pieces cs generalizing ps rest with
  | case1 => cases h
  | case2 cs =>
    cases h
    exact .close _
  | case3 a b c d cs n ps' rest' hps hn ih =>
    cases h
    exact .unit hn (ih hps)
  | case4 => cases h
  | case5 e cs _ c ps' rest' hps he ih =>
    cases h
    exact .escape (simple?_eq_some_iff.1 he) (ih hps)
  | case6 => cases h
  | case7 => cases h
  | case8 c cs hquote _ _ hc ih =>
    obtain ⟨⟨ps', rest'⟩, hps, heq⟩ := Option.map_eq_some_iff.1 h
    cases heq
    obtain ⟨hcontrol, hslash⟩ := not_or.1 hc
    exact .plain hquote hslash (Nat.not_lt.1 hcontrol) (ih hps)

theorem Grammar.Chars.pieces_eq {cs rest : List Char} {ps : List Quoted.Piece}
    (h : Chars cs ps rest) : Quoted.pieces cs = some (ps, rest) := by
  induction h with
  | close rest => rw [Quoted.pieces]
  | plain hquote hslash hc h ih =>
    rw [Quoted.pieces_char hquote hslash (Nat.not_lt.2 hc), ih, Option.map_some]
  | escape he h ih => rw [Quoted.pieces_simple (simple?_eq_some_iff.2 he), ih, Option.map_some]
  | unit hn h ih => rw [Quoted.pieces_unit hn, ih, Option.map_some]

theorem string_eq_some_iff {cs rest : List Char} {s : Option String} :
    string cs = some (s, rest) ↔ ∃ ps, Chars cs ps rest ∧ textOf ps = s := by
  simp only [string, Quoted.body, Option.map_map]
  constructor
  · intro h
    obtain ⟨⟨ps, rest'⟩, hps, heq⟩ := Option.map_eq_some_iff.1 h
    cases heq
    exact ⟨ps, pieces_sound hps, rfl⟩
  · rintro ⟨ps, hps, rfl⟩
    rw [hps.pieces_eq]
    rfl

theorem Grammar.Chars.length_lt {cs rest : List Char} {ps : List Quoted.Piece}
    (h : Chars cs ps rest) : rest.length < cs.length := by
  induction h with
  | close rest => exact Nat.lt_succ_self _
  | plain _ _ _ _ ih => exact ih.trans (Nat.lt_succ_self _)
  | escape _ _ ih | unit _ _ ih =>
    simp only [List.length_cons]
    omega

/-! ## what is read is a value -/

/-- With so many steps, nothing is read but what the grammar allows. -/
structure Sound (n : Nat) : Prop where
  value : ∀ {cs rest v}, value n cs = some (v, rest) → Value (skip cs) v rest
  items : ∀ {cs rest vs}, items n cs = some (vs, rest) → Items cs vs rest
  members : ∀ {cs rest ms}, members n cs = some (ms, rest) → Members cs ms rest

theorem Sound.value_succ {n : Nat} (hn : Sound n) {cs rest : List Char} {v : Json}
    (h : Json.value (n + 1) cs = some (v, rest)) : Value (skip cs) v rest := by
  unfold Json.value at h
  split at h
  · next cs₁ hskip =>
    rw [hskip]
    split at h
    · next cs₂ hclose =>
      cases h
      exact .emptyObj (hclose ▸ gap_skip cs₁)
    · obtain ⟨⟨ms, rest'⟩, hms, heq⟩ := Option.map_eq_some_iff.1 h
      cases heq
      exact .obj (hn.members (members_skip n cs₁ ▸ hms))
  · next cs₁ hskip =>
    rw [hskip]
    split at h
    · next cs₂ hclose =>
      cases h
      exact .emptyArr (hclose ▸ gap_skip cs₁)
    · obtain ⟨⟨vs, rest'⟩, hvs, heq⟩ := Option.map_eq_some_iff.1 h
      cases heq
      exact .arr (hn.items (items_skip n cs₁ ▸ hvs))
  · next cs₁ hskip =>
    rw [hskip]
    obtain ⟨⟨s, rest'⟩, hs, heq⟩ := Option.map_eq_some_iff.1 h
    cases heq
    obtain ⟨ps, hps, rfl⟩ := string_eq_some_iff.1 hs
    exact .str hps
  · next hskip =>
    cases h
    exact hskip ▸ .true _
  · next hskip =>
    cases h
    exact hskip ▸ .false _
  · next hskip =>
    cases h
    exact hskip ▸ .null _
  · obtain ⟨⟨m, rest'⟩, hm, heq⟩ := Option.map_eq_some_iff.1 h
    cases heq
    exact .num (number_sound hm)

theorem Sound.items_succ {n : Nat} (hn : Sound n) {cs rest : List Char} {vs : List Json}
    (h : Json.items (n + 1) cs = some (vs, rest)) : Items cs vs rest := by
  unfold Json.items at h
  split at h
  · cases h
  · next v cs₁ hv =>
    split at h
    · next cs₂ hcomma =>
      obtain ⟨⟨vs', rest'⟩, hvs, heq⟩ := Option.map_eq_some_iff.1 h
      cases heq
      exact .more (gap_skip cs) (hn.value hv) (hcomma ▸ gap_skip cs₁) (hn.items hvs)
    · next hstop =>
      cases h
      exact .last (gap_skip cs) (hn.value hv) (hstop ▸ gap_skip cs₁)
    · cases h

theorem Sound.members_succ {n : Nat} (hn : Sound n) {cs rest : List Char}
    {ms : List (Option String × Json)} (h : Json.members (n + 1) cs = some (ms, rest)) :
    Members cs ms rest := by
  unfold Json.members at h
  split at h
  · next cs₁ hquote =>
    split at h
    · cases h
    · next k cs₂ hk =>
      obtain ⟨ps, hps, rfl⟩ := string_eq_some_iff.1 hk
      split at h
      · next cs₃ hcolon =>
        split at h
        · cases h
        · next v cs₄ hv =>
          split at h
          · next cs₅ hcomma =>
            obtain ⟨⟨ms', rest'⟩, hms, heq⟩ := Option.map_eq_some_iff.1 h
            cases heq
            exact .more (hquote ▸ gap_skip cs) hps (hcolon ▸ gap_skip cs₂) (gap_skip cs₃)
              (hn.value hv) (hcomma ▸ gap_skip cs₄) (hn.members hms)
          · next hstop =>
            cases h
            exact .last (hquote ▸ gap_skip cs) hps (hcolon ▸ gap_skip cs₂) (gap_skip cs₃)
              (hn.value hv) (hstop ▸ gap_skip cs₄)
          · cases h
      · cases h
  · cases h

theorem sound (n : Nat) : Sound n := by
  induction n with
  | zero => exact ⟨(nomatch ·), (nomatch ·), (nomatch ·)⟩
  | succ n ih => exact ⟨ih.value_succ, ih.items_succ, ih.members_succ⟩

/-! ## every value is read -/

theorem value_of_chars {cs rest : List Char} {ps : List Quoted.Piece} (h : Chars cs ps rest)
    (n : Nat) : value (n + 1) ('"' :: cs) = some (.str (textOf ps), rest) := by
  rw [value, skip_cons (by decide)]
  simp only [string_eq_some_iff.2 ⟨ps, h, rfl⟩, Option.map_some]

theorem skip_of_gap {c : Char} {cs rest : List Char} (h : Gap cs (c :: rest))
    (hc : isGap c = false) : skip cs = c :: rest := by
  rw [h.skip_eq, skip_cons hc]

theorem value_emptyArr {cs rest : List Char} (h : Gap cs (']' :: rest)) (n : Nat) :
    value (n + 1) ('[' :: cs) = some (.arr [], rest) := by
  rw [value, skip_cons (by decide)]
  simp only [skip_of_gap h (by decide)]

theorem value_emptyObj {cs rest : List Char} (h : Gap cs ('}' :: rest)) (n : Nat) :
    value (n + 1) ('{' :: cs) = some (.obj [], rest) := by
  rw [value, skip_cons (by decide)]
  simp only [skip_of_gap h (by decide)]

section Steps

variable {cs cs₁ cs₂ cs₃ cs₄ cs₅ cs₆ rest : List Char} {v : Json} {vs : List Json}
  {ps : List Quoted.Piece} {ms : List (Option String × Json)} {n : Nat}

theorem items_last (gap : Gap cs cs₁) (hv : value n cs₁ = some (v, cs₂))
    (stop : Gap cs₂ (']' :: rest)) : items (n + 1) cs = some ([v], rest) := by
  rw [items, gap.value_eq, hv]
  simp only [skip_of_gap stop (by decide)]

theorem items_more (gap : Gap cs cs₁) (hv : value n cs₁ = some (v, cs₂))
    (comma : Gap cs₂ (',' :: cs₃)) (hvs : items n cs₃ = some (vs, rest)) :
    items (n + 1) cs = some (v :: vs, rest) := by
  rw [items, gap.value_eq, hv]
  simp only [skip_of_gap comma (by decide), hvs, Option.map_some]

theorem members_last (quote : Gap cs ('"' :: cs₁)) (name : Chars cs₁ ps cs₂)
    (colon : Gap cs₂ (':' :: cs₃)) (gap : Gap cs₃ cs₄) (hv : value n cs₄ = some (v, cs₅))
    (stop : Gap cs₅ ('}' :: rest)) : members (n + 1) cs = some ([(textOf ps, v)], rest) := by
  have hname := string_eq_some_iff.2 ⟨ps, name, rfl⟩
  rw [members, skip_of_gap quote (by decide)]
  simp only [hname, skip_of_gap colon (by decide), gap.value_eq, hv, skip_of_gap stop (by decide)]

theorem members_more (quote : Gap cs ('"' :: cs₁)) (name : Chars cs₁ ps cs₂)
    (colon : Gap cs₂ (':' :: cs₃)) (gap : Gap cs₃ cs₄) (hv : value n cs₄ = some (v, cs₅))
    (comma : Gap cs₅ (',' :: cs₆)) (hms : members n cs₆ = some (ms, rest)) :
    members (n + 1) cs = some ((textOf ps, v) :: ms, rest) := by
  have hname := string_eq_some_iff.2 ⟨ps, name, rfl⟩
  rw [members, skip_of_gap quote (by decide)]
  simp only [hname, skip_of_gap colon (by decide), gap.value_eq, hv,
    skip_of_gap comma (by decide), hms, Option.map_some]

end Steps

namespace Grammar

mutual

theorem Value.length_lt {cs rest : List Char} {v : Json} :
    Value cs v rest → rest.length < cs.length
  | .null rest | .true rest | .false rest => by simp only [List.length_cons]; omega
  | .num h => h.length_lt
  | .str h => h.length_lt.trans (Nat.lt_succ_self _)
  | .emptyArr h | .emptyObj h => h.length_lt.trans (Nat.lt_succ_self _)
  | .arr h => h.length_lt.trans (Nat.lt_succ_self _)
  | .obj h => h.length_lt.trans (Nat.lt_succ_self _)

theorem Items.length_lt {cs rest : List Char} {vs : List Json} :
    Items cs vs rest → rest.length < cs.length
  | .last gap hv stop => stop.length_lt.trans (hv.length_lt.trans_le gap.length_le)
  | .more gap hv comma h =>
    h.length_lt.trans (comma.length_lt.trans (hv.length_lt.trans_le gap.length_le))

theorem Members.length_lt {cs rest : List Char} {ms : List (Option String × Json)} :
    Members cs ms rest → rest.length < cs.length
  | .last quote name colon gap hv stop => stop.length_lt.trans (hv.length_lt.trans
      (gap.length_le.trans_lt (colon.length_lt.trans (name.length_lt.trans quote.length_lt))))
  | .more quote name colon gap hv comma h => h.length_lt.trans (comma.length_lt.trans
      (hv.length_lt.trans (gap.length_le.trans_lt (colon.length_lt.trans
        (name.length_lt.trans quote.length_lt)))))

end

/-- What is not empty takes a step. -/
theorem exists_succ {cs rest : List Char} {n : Nat} (hlt : rest.length < cs.length)
    (hn : cs.length ≤ n + rest.length) : ∃ m, n = m + 1 :=
  ⟨n - 1, by omega⟩

mutual

/-- Every value is read, unless it is a number that goes on, in no more steps than it has
characters. -/
theorem Value.value_eq {cs rest : List Char} {v : Json} {n : Nat} (h : Value cs v rest)
    (hn : cs.length ≤ n + rest.length) (hrest : Stops rest) : value n cs = some (v, rest) := by
  obtain ⟨n, rfl⟩ := exists_succ h.length_lt hn
  match h with
  | .null rest | .true rest | .false rest => rfl
  | .num h => exact value_of_number (h.number_eq hrest) n
  | .str h => exact value_of_chars h n
  | .emptyArr h => exact value_emptyArr h n
  | .emptyObj h => exact value_emptyObj h n
  | .arr h =>
    simp only [List.length_cons] at hn
    exact value_arr (h.items_eq (by omega))
  | .obj h =>
    simp only [List.length_cons] at hn
    exact value_obj (h.members_eq (by omega))

theorem Items.items_eq {cs rest : List Char} {vs : List Json} {n : Nat} (h : Items cs vs rest)
    (hn : cs.length ≤ n + rest.length) : items n cs = some (vs, rest) := by
  obtain ⟨n, rfl⟩ := exists_succ h.length_lt hn
  match h with
  | .last gap hv stop =>
    have hgap := gap.length_le
    have hstop := stop.length_lt
    exact items_last gap (hv.value_eq (by omega) (stop.stops_of_mem (by decide))) stop
  | .more gap hv comma h =>
    have hgap := gap.length_le
    have hlt := hv.length_lt
    have hcomma := comma.length_lt
    have hlt' := h.length_lt
    exact items_more gap (hv.value_eq (by omega) (comma.stops_of_mem (by decide))) comma
      (h.items_eq (by omega))

theorem Members.members_eq {cs rest : List Char} {ms : List (Option String × Json)} {n : Nat}
    (h : Members cs ms rest) (hn : cs.length ≤ n + rest.length) :
    members n cs = some (ms, rest) := by
  obtain ⟨n, rfl⟩ := exists_succ h.length_lt hn
  match h with
  | .last quote name colon gap hv stop =>
    have hquote := quote.length_lt
    have hname := name.length_lt
    have hcolon := colon.length_lt
    have hgap := gap.length_le
    have hstop := stop.length_lt
    exact members_last quote name colon gap
      (hv.value_eq (by omega) (stop.stops_of_mem (by decide))) stop
  | .more quote name colon gap hv comma h =>
    have hquote := quote.length_lt
    have hname := name.length_lt
    have hcolon := colon.length_lt
    have hgap := gap.length_le
    have hlt := hv.length_lt
    have hcomma := comma.length_lt
    have hlt' := h.length_lt
    exact members_more quote name colon gap
      (hv.value_eq (by omega) (comma.stops_of_mem (by decide))) comma (h.members_eq (by omega))

end

end Grammar

/-! ## whole texts -/

/-- **The reader knows the grammar.**  A text is read as a value just when the grammar allows it. -/
theorem parse?_eq_some_iff {s : String} {v : Json} : parse? s = some v ↔ Text s.toList v := by
  constructor
  · intro h
    simp only [parse?] at h
    split at h
    · next v' rest hv =>
      split at h
      · next hempty =>
        cases h
        have hafter := gap_skip rest
        rw [List.isEmpty_iff.1 hempty] at hafter
        exact .mk (gap_skip _) ((sound _).value hv) hafter
      · cases h
    · cases h
  · rintro ⟨before, hv, after⟩
    have hlength := before.length_le
    have hvalue := hv.value_eq (n := s.toList.length + 1) (by omega)
      (after.stops (by simp [Stops]))
    have hskip := after.skip_eq
    rw [parse?, before.value_eq, hvalue]
    simp only [hskip]
    rfl

end Wireboard.Json
