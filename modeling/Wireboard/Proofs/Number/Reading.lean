import Mathlib.Data.Bool.AllAny
import Wireboard.Number.Reading
import Wireboard.Proofs.Json.Number
import Wireboard.Proofs.Text.Trimming

/-!
# What is typed for a number

Printed numbers are made of letters, digits, signs and points (`Layout.mem_text`), so neither a comma
between them nor blanks around them get in their way.  A typed literal is read as it is written
(`Reading.literal?_text`).
-/

namespace Wireboard

/-- The character neither separates the numbers of a sequence nor is dropped at their ends. -/
def Solid (c : Char) : Prop := c ≠ ',' ∧ isBlank c = false

instance (c : Char) : Decidable (Solid c) := inferInstanceAs (Decidable (_ ∧ _))

theorem Digit.solid_of_mem_text {ds : List Digit} {c : Char} (h : c ∈ text ds) : Solid c := by
  have hall : ∀ d : Digit, Solid d.toChar := by decide
  obtain ⟨d, -, rfl⟩ := List.mem_map.1 h
  exact hall d

theorem Literal.solid_of_mem_text {n : Literal} {c : Char} (h : c ∈ n.text) : Solid c := by
  obtain ⟨negative, whole, fraction, exponent⟩ := n
  simp only [text, List.mem_append] at h
  rcases h with ((h | h) | h) | h
  · have hc : c = '-' := by cases negative <;> simp_all
    exact hc ▸ by decide
  · exact Digit.solid_of_mem_text h
  · cases fraction with
    | nil => cases h
    | cons d ds =>
      rcases List.mem_cons.1 h with rfl | h
      · decide
      · exact Digit.solid_of_mem_text h
  · cases exponent with
    | none => cases h
    | some p =>
      obtain ⟨sign, ds⟩ := p
      rw [Json.exponentText_some] at h
      rcases List.mem_cons.1 h with rfl | h
      · decide
      · rcases List.mem_append.1 h with h | h
        · have hc : c = '+' ∨ c = '-' := by rcases sign with _ | _ | _ <;> simp_all [Json.signText]
          rcases hc with rfl | rfl <;> decide
        · exact Digit.solid_of_mem_text h

theorem Layout.solid_of_mem_doubleText {l : Layout} {x : Float} {c : Char}
    (h : c ∈ (l.doubleText x).toList) : Solid c := by
  rw [doubleText, String.toList_ofList] at h
  unfold text at h
  split at h
  · exact Literal.solid_of_mem_text h
  · have hall : "inf".toList.all (Solid ·) = true := by decide
    exact List.all_iff_forall_prop.1 hall c h
  · have hall : "-inf".toList.all (Solid ·) = true := by decide
    exact List.all_iff_forall_prop.1 hall c h
  · have hall : "NaN".toList.all (Solid ·) = true := by decide
    exact List.all_iff_forall_prop.1 hall c h

namespace Reading

/-! ## blanks -/

theorem number?_blank_cons {c : Char} (hc : isBlank c = true) (cs : List Char) :
    number? (c :: cs) = number? cs := by
  rw [number?, number?, Blank.trim, Blank.trim, List.dropWhile_cons_of_pos hc]

theorem number?_of_solid {cs : List Char} (h : ∀ c ∈ cs, Solid c) {n : Literal}
    (hn : literal? cs = some n) (hfinite : n.nearest.isFinite = true) :
    number? cs = some n.nearest := by
  rw [number?, Blank.trim_eq_self fun c hc => (h c hc).2, hn]
  exact if_pos hfinite

/-! ## literals -/

theorem sign_text (negative : Bool) {whole : List Digit} (hne : whole ≠ []) (rest : List Char) :
    sign ((if negative then ['-'] else []) ++ (Digit.text whole ++ rest)) =
      (negative, Digit.text whole ++ rest) := by
  have hplus := Digit.text_append_ne hne (c := '+') (by decide) rest
  have hminus := Digit.text_append_ne hne (c := '-') (by decide) rest
  cases negative with
  | true => rfl
  | false =>
    change sign (Digit.text whole ++ rest) = _
    unfold sign
    split
    · next cs h => exact absurd h (hplus cs)
    · next cs h => exact absurd h (hminus cs)
    · rfl

theorem readExponent_text {exponent : Option (Option Sign × List Digit)}
    (hne : ∀ s ds, exponent = some (s, ds) → ds ≠ []) :
    Literal.readExponent (Literal.exponentText exponent) = some (exponent, []) := by
  cases exponent with
  | none => rfl
  | some p =>
    obtain ⟨sign, ds⟩ := p
    have hend : Digit.Ends [] := fun c hc => by cases hc
    have hread := Json.readExponent_digits (.inl rfl) sign (hne _ _ rfl) hend
    rwa [List.append_nil, ← Json.exponentText_some] at hread

theorem ends_exponentText (exponent : Option (Option Sign × List Digit)) :
    Digit.Ends (Literal.exponentText exponent) ∧ ∀ cs, Literal.exponentText exponent ≠ '.' :: cs := by
  cases exponent with
  | none => exact ⟨fun c hc => (nomatch hc), fun cs h => (nomatch h)⟩
  | some p =>
    rw [Json.exponentText_some]
    exact ⟨fun c hc => Option.some.inj hc ▸ by decide, fun cs h => (nomatch h)⟩

/-- A literal is read from its text, to the end. -/
theorem literal?_text {n : Literal} (hn : n.WellFormed) : literal? n.text = some n := by
  obtain ⟨negative, whole, fraction, exponent⟩ := n
  have hne := hn.whole_ne_nil
  have htext : (Literal.mk negative whole fraction exponent).text =
      (if negative then ['-'] else []) ++ (Digit.text whole ++
        (Json.fractionText fraction ++ Literal.exponentText exponent)) := by
    simp only [← List.append_assoc]
    rfl
  have hexponent := readExponent_text hn.exponent_ne_nil
  obtain ⟨hends, hpoint⟩ := ends_exponentText exponent
  have hwhole : (whole.isEmpty && fraction.isEmpty) = false := by simp [hne]
  rw [htext, literal?, sign_text negative hne]
  cases fraction with
  | nil =>
    have hread := Digit.read_text_append whole hends
    generalize Literal.exponentText exponent = tail at *
    simp only [Json.fractionText, List.nil_append, hread]
    rw [hwhole, hexponent]
    rfl
  | cons d ds =>
    have hdot : Digit.Ends ('.' :: (Digit.text (d :: ds) ++ Literal.exponentText exponent)) :=
      fun c hc => Option.some.inj hc ▸ by decide
    have hread := Digit.read_text_append whole hdot
    have hfraction := Digit.read_text_append (d :: ds) hends
    simp only [Json.fractionText, List.cons_append, hread, hfraction, hexponent, List.isEmpty_cons,
      Bool.and_false, Bool.false_eq_true, if_false]

end Reading

end Wireboard
