import Wireboard.Proofs.Json.Grammar
import Wireboard.Proofs.Number.Reading

/-!
# The numbers that can be typed

The rules for a number that a user types, and that the reader goes by these and no others
(`number?_eq_some_iff`).

* `Spelling`: a literal has many spellings, with a plus or with zeros that need not be there, with the
  point at either end of the digits.  The reader knows the literal from each of them
  (`literal?_eq_some_iff`);
* `Numeral`: blanks around a spelling do not count, and of what it stands for only finite numbers do.
-/

namespace Wireboard.Reading

open Json (signText)
open Json.Grammar (Exponent)

/-! ## the rules -/

/-- A point, and digits after it or none; or nothing. -/
inductive Fraction : List Char → List Digit → Prop
  | none : Fraction [] []
  | point (ds : List Digit) : Fraction ('.' :: Digit.text ds) ds

/-- A sign or none, digits, a point among or beside them or none, and an exponent or none. -/
inductive Spelling : List Char → Literal → Prop
  | mk (s : Option Sign) {whole fraction : List Digit} {exponent : Option (Option Sign × List Digit)}
      {cs cs' : List Char} (hfraction : Fraction cs fraction) (hexponent : Exponent cs' exponent [])
      (hdigits : whole ≠ [] ∨ fraction ≠ []) :
      Spelling (signText s ++ (Digit.text whole ++ (cs ++ cs')))
        ⟨s = some .minus, whole, fraction, exponent⟩

/-- A spelling with blanks around it, of a literal whose nearest double is finite: this double is the
number that is typed. -/
inductive Numeral : List Char → Float → Prop
  | mk {before cs after : List Char} {n : Literal} (hbefore : ∀ c ∈ before, isBlank c = true)
      (spelling : Spelling cs n) (hafter : ∀ c ∈ after, isBlank c = true)
      (finite : n.nearest.isFinite = true) : Numeral (before ++ cs ++ after) n.nearest

/-! ## what is read is a spelling -/

theorem exists_sign (cs : List Char) :
    ∃ s : Option Sign, cs = signText s ++ (sign cs).2 ∧ (sign cs).1 = decide (s = some .minus) := by
  unfold sign
  split
  · exact ⟨some .plus, rfl, rfl⟩
  · exact ⟨some .minus, rfl, rfl⟩
  · exact ⟨none, rfl, rfl⟩

theorem literal?_sound {cs : List Char} {n : Literal} (h : literal? cs = some n) : Spelling cs n := by
  obtain ⟨s, hsign, hnegative⟩ := exists_sign cs
  unfold literal? at h
  split at h
  next negative cs₁ hcs₁ =>
  rw [hcs₁] at hsign hnegative
  have hwhole := Digit.text_read cs₁
  split at h
  next whole cs₂ hcs₂ =>
  rw [hcs₂] at hwhole
  split at h
  next point fraction cs₃ hcs₃ =>
  have hfraction : ∃ cs, Fraction cs fraction ∧ cs₂ = cs ++ cs₃ := by
    split at hcs₃
    · next cs =>
      have htext := Digit.text_read cs
      rw [hcs₃] at htext
      exact ⟨_, .point fraction, congrArg ('.' :: ·) htext.symm⟩
    · cases hcs₃
      exact ⟨_, .none, rfl⟩
  obtain ⟨cs, hfraction, rfl⟩ := hfraction
  split at h
  · cases h
  · next hdigits =>
    split at h
    · next exponent hexponent =>
      obtain rfl := Option.some.inj h
      obtain rfl : negative = decide (s = some .minus) := hnegative
      rw [hsign, ← hwhole]
      refine .mk s hfraction (Json.readExponent_sound hexponent) ?_
      by_contra hnone
      simp_all
    · cases h

/-! ## every spelling is read -/

theorem Fraction.ends {cs cs' : List Char} {ds : List Digit} (h : Fraction cs ds)
    (h' : Digit.Ends cs') : Digit.Ends (cs ++ cs') := by
  cases h with
  | none => exact h'
  | point ds => exact fun c hc => Option.some.inj hc ▸ by decide

/-- A sign is read as one, since the digits and the point after it are none. -/
theorem sign_signText (s : Option Sign) {cs : List Char} (h : ∀ c ∈ cs.head?, c ≠ '+' ∧ c ≠ '-') :
    sign (signText s ++ cs) = (decide (s = some .minus), cs) := by
  rcases s with _ | _ | _
  · change sign cs = _
    unfold sign
    split
    · next cs => exact absurd rfl (h '+' rfl).1
    · next cs => exact absurd rfl (h '-' rfl).2
    · rfl
  · rfl
  · rfl

/-- What begins with digits or with a point does not begin with a sign. -/
theorem no_sign_of_digits {whole fraction : List Digit} {cs : List Char} (h : Fraction cs fraction)
    (hdigits : whole ≠ [] ∨ fraction ≠ []) (cs' : List Char) :
    ∀ c ∈ (Digit.text whole ++ (cs ++ cs')).head?, c ≠ '+' ∧ c ≠ '-' := by
  intro c hc
  cases whole with
  | cons d ds =>
    obtain rfl := Option.some.inj hc
    have hall : ∀ d : Digit, d.toChar ≠ '+' ∧ d.toChar ≠ '-' := by decide
    exact hall d
  | nil =>
    cases h with
    | none => simp at hdigits
    | point ds =>
      obtain rfl := Option.some.inj hc
      decide

theorem Spelling.literal?_eq {cs : List Char} {n : Literal} (h : Spelling cs n) :
    literal? cs = some n := by
  cases h with
  | @mk s whole fraction exponent cs cs' hfraction hexponent hdigits =>
    have hstops : Json.Stops [] := fun c hc => by cases hc
    have hread := hexponent.readExponent_eq hstops
    have htail := Json.no_digit_of_exponent hexponent hstops
    have hends : Digit.Ends cs' := fun c hc => (htail c hc).1
    have hwhole := Digit.read_text_append whole (hfraction.ends hends)
    have hsome : (whole.isEmpty && fraction.isEmpty) = false := by
      rw [Bool.and_eq_false_iff, List.isEmpty_eq_false_iff, List.isEmpty_eq_false_iff]
      exact hdigits
    rw [literal?, sign_signText s (no_sign_of_digits hfraction hdigits cs')]
    cases hfraction with
    | point =>
      have hpoint := Digit.read_text_append fraction hends
      rw [List.cons_append] at hwhole ⊢
      simp only [hwhole, hpoint, hsome, hread, Bool.false_eq_true, if_false]
    | none =>
      have hpoint : ∀ cs, cs' = '.' :: cs → False := fun cs h => (htail '.' (by simp [h])).2 rfl
      have hne : whole ≠ [] := hdigits.resolve_right fun h => h rfl
      rw [List.nil_append] at hwhole ⊢
      simp [hwhole, hne, hread]

/-- A literal is read from each of its spellings, and from nothing else. -/
theorem literal?_eq_some_iff {cs : List Char} {n : Literal} :
    literal? cs = some n ↔ Spelling cs n :=
  ⟨literal?_sound, Spelling.literal?_eq⟩

/-! ## blanks around it -/

theorem solid_of_mem_signText {s : Option Sign} {c : Char} (h : c ∈ signText s) : Solid c := by
  have hc : c = '+' ∨ c = '-' := by
    rcases s with _ | _ | _
    · cases h
    · exact .inl (List.mem_singleton.1 h)
    · exact .inr (List.mem_singleton.1 h)
  rcases hc with rfl | rfl <;> decide

theorem Spelling.solid {cs : List Char} {n : Literal} (h : Spelling cs n) : ∀ c ∈ cs, Solid c := by
  cases h with
  | @mk s whole fraction exponent cs cs' hfraction hexponent hdigits =>
    intro c hc
    rcases List.mem_append.1 hc with hc | hc
    · exact solid_of_mem_signText hc
    rcases List.mem_append.1 hc with hc | hc
    · exact Digit.solid_of_mem_text hc
    rcases List.mem_append.1 hc with hc | hc
    · cases hfraction with
      | none => cases hc
      | point =>
        rcases List.mem_cons.1 hc with rfl | hc
        · decide
        · exact Digit.solid_of_mem_text hc
    · cases hexponent with
      | none => cases hc
      | digits he s' hds rest =>
        rw [List.append_nil] at hc
        rcases List.mem_cons.1 hc with rfl | hc
        · rcases he with rfl | rfl <;> decide
        · rcases List.mem_append.1 hc with hc | hc
          · exact solid_of_mem_signText hc
          · exact Digit.solid_of_mem_text hc

/-- **The reader knows the numbers that can be typed, and nothing else.** -/
theorem number?_eq_some_iff {cs : List Char} {x : Float} : number? cs = some x ↔ Numeral cs x := by
  constructor
  · intro h
    obtain ⟨before, after, hcs, hbefore, hafter⟩ := Blank.exists_append_trim cs
    unfold number? at h
    split at h
    · next n hn =>
      split_ifs at h with hfinite
      obtain rfl := Option.some.inj h
      rw [hcs]
      exact .mk hbefore (literal?_eq_some_iff.1 hn) hafter hfinite
    · cases h
  · rintro ⟨hbefore, spelling, hafter, finite⟩
    have hcore := Blank.trim_eq_self fun c hc => (spelling.solid c hc).2
    rw [number?, Blank.trim_append_append hbefore hafter, hcore, literal?_eq_some_iff.2 spelling]
    exact if_pos finite

/-- One text is one number at most. -/
theorem Numeral.unique {cs : List Char} {x y : Float} (hx : Numeral cs x) (hy : Numeral cs y) :
    x = y := by
  rw [← number?_eq_some_iff] at hx hy
  exact Option.some.inj (hx.symm.trans hy)

end Wireboard.Reading
