import Wireboard.Json.Parser
import Wireboard.Proofs.Number.Shortest

/-!
# Numbers are read as they are written

The parts of a number are read one after the other, and reading stops at what no number goes on with
(`number_append`).  In particular a literal that is a number of JSON is read back from its text
(`number_text_append`).
-/

namespace Wireboard

/-! ## runs of digits -/

namespace Digit

/-- The text does not go on with a digit. -/
def Ends (rest : List Char) : Prop := ∀ c ∈ rest.head?, ofChar? c = none

theorem read_of_ends {rest : List Char} (h : Ends rest) : read rest = ([], rest) := by
  cases rest with
  | nil => rfl
  | cons c rest => rw [read, h c rfl]

theorem read_text_append (ds : List Digit) {rest : List Char} (h : Ends rest) :
    read (text ds ++ rest) = (ds, rest) := by
  induction ds with
  | nil => exact read_of_ends h
  | cons d ds ih =>
    rw [text, List.map_cons, List.cons_append, read, ofChar?_toChar]
    rw [text] at ih
    simp only [ih]

theorem toChar_of_ofChar? {c : Char} {d : Digit} (h : ofChar? c = some d) : d.toChar = c := by
  unfold ofChar? at h
  split at h
  · next hc =>
    obtain rfl := Option.some.inj h
    rw [toChar, Nat.add_sub_cancel' hc.1, Char.ofNat_toNat]
  · cases h

/-- Nothing is lost when digits are read. -/
theorem text_read (cs : List Char) : text (read cs).1 ++ (read cs).2 = cs := by
  induction cs with
  | nil => rfl
  | cons c cs ih =>
    rw [read]
    cases hc : ofChar? c with
    | none => rfl
    | some d =>
      simp only [text, List.map_cons, List.cons_append, toChar_of_ofChar? hc]
      exact congrArg (c :: ·) ih

theorem text_append_ne {ds : List Digit} (hds : ds ≠ []) {c : Char} (hc : ofChar? c = none)
    (rest cs : List Char) : text ds ++ rest ≠ c :: cs := by
  obtain ⟨d, ds, rfl⟩ := List.exists_cons_of_ne_nil hds
  intro h
  have hd : d.toChar = c := (List.cons.inj h).1
  rw [← hd, ofChar?_toChar] at hc
  cases hc

end Digit

namespace Json

/-- What a text goes on with after a value: nothing, a comma, a new line, a closing bracket. -/
def Follows (rest : List Char) : Prop := ∀ c ∈ rest.head?, c ∈ [',', '\n', ']', '}']

theorem no_number_of_mem {c : Char} (hc : c ∈ [',', '\n', ']', '}']) :
    Digit.ofChar? c = none ∧ c ≠ '.' ∧ c ≠ 'e' ∧ c ≠ 'E' := by
  simp only [List.mem_cons, List.not_mem_nil, or_false] at hc
  rcases hc with rfl | rfl | rfl | rfl <;> decide

/-- No number goes on with this: no digit, no point and no exponent comes next. -/
def Stops (rest : List Char) : Prop :=
  ∀ c ∈ rest.head?, Digit.ofChar? c = none ∧ c ≠ '.' ∧ c ≠ 'e' ∧ c ≠ 'E'

theorem Follows.stops {rest : List Char} (h : Follows rest) : Stops rest :=
  fun c hc => no_number_of_mem (h c hc)

theorem Stops.ends {rest : List Char} (h : Stops rest) : Digit.Ends rest :=
  fun c hc => (h c hc).1

/-! ## the parts of a number -/

/-- The characters of the sign of an exponent. -/
def signText : Option Sign → List Char
  | none => []
  | some .plus => ['+']
  | some .minus => ['-']

/-- The characters of a fraction. -/
def fractionText : List Digit → List Char
  | [] => []
  | ds => '.' :: Digit.text ds

theorem exponentText_some (sign : Option Sign) (ds : List Digit) :
    Literal.exponentText (some (sign, ds)) = 'e' :: (signText sign ++ Digit.text ds) := by
  rcases sign with _ | sign | sign <;> rfl

theorem readExponent_digits {e : Char} (he : e = 'e' ∨ e = 'E') (sign : Option Sign)
    {ds : List Digit} (hds : ds ≠ []) {rest : List Char} (h : Digit.Ends rest) :
    Literal.readExponent (e :: (signText sign ++ Digit.text ds ++ rest)) =
      some (some (sign, ds), rest) := by
  have hread := Digit.read_text_append ds h
  have hplus : ∀ cs, Digit.text ds ++ rest = '+' :: cs → False :=
    Digit.text_append_ne hds (by decide) rest
  have hminus : ∀ cs, Digit.text ds ++ rest = '-' :: cs → False :=
    Digit.text_append_ne hds (by decide) rest
  cases sign with
  | some s => cases s <;> simp [signText, Literal.readExponent, he, hread]
  | none =>
    rw [signText, List.nil_append, Literal.readExponent, if_pos he]
    · simp [hread]
    · exact hplus
    · exact hminus

theorem readExponent_of_stops {rest : List Char} (h : Stops rest) :
    Literal.readExponent rest = some (none, rest) := by
  cases rest with
  | nil => rfl
  | cons c rest =>
    obtain ⟨-, -, he, hE⟩ := h c rfl
    simp [Literal.readExponent, he, hE]

/-- A number whose exponent, if it has one, has been read already. -/
theorem number_append (negative : Bool) {whole fraction : List Digit} (hne : whole ≠ [])
    (hzero : whole.head? = some Digit.zero → whole.length = 1) {xs rest : List Char}
    {exponent : Option (Option Sign × List Digit)}
    (hexp : Literal.readExponent xs = some (exponent, rest))
    (htail : ∀ c ∈ xs.head?, Digit.ofChar? c = none ∧ c ≠ '.') :
    number ((if negative then ['-'] else []) ++ Digit.text whole ++ fractionText fraction ++ xs) =
      some (⟨negative, whole, fraction, exponent⟩, rest) := by
  have hwhole : (whole.isEmpty || (whole.head? == some Digit.zero && whole.length != 1)) = false := by
    simpa using ⟨hne, hzero⟩
  have hsign : ∀ tail cs, Digit.text whole ++ tail = '-' :: cs → False :=
    Digit.text_append_ne hne (by decide)
  have hpoint : ∀ cs, xs = '.' :: cs → False := fun cs hcs => (htail '.' (by simp [hcs])).2 rfl
  have hends : Digit.Ends xs := fun c hc => (htail c hc).1
  cases fraction with
  | nil =>
    have hread := Digit.read_text_append whole hends
    have hsign := hsign xs
    generalize hys : Digit.text whole ++ xs = ys at hread hsign
    cases negative <;> simp [number, fractionText, hys, hread, hwhole, hexp]
  | cons d ds =>
    have hread := Digit.read_text_append (d :: ds) hends
    have hdot : Digit.Ends ('.' :: (Digit.text (d :: ds) ++ xs)) :=
      fun c hc => Option.some.inj hc ▸ by decide
    have hread' := Digit.read_text_append whole hdot
    have hsign := hsign ('.' :: (Digit.text (d :: ds) ++ xs))
    generalize hys : Digit.text whole ++ '.' :: (Digit.text (d :: ds) ++ xs) = ys at hread' hsign
    cases negative <;> simp [number, fractionText, hys, hread, hwhole, hread', hexp]

theorem number_text_append {n : Literal} (hn : n.WellFormed) {rest : List Char} (h : Follows rest) :
    number (n.text ++ rest) = some (n, rest) := by
  obtain ⟨negative, whole, fraction, exponent⟩ := n
  have htext : (Literal.mk negative whole fraction exponent).text ++ rest =
      (if negative then ['-'] else []) ++ Digit.text whole ++ fractionText fraction ++
        (Literal.exponentText exponent ++ rest) := by
    rw [← List.append_assoc]
    rfl
  rw [htext]
  cases exponent with
  | none =>
    exact number_append negative hn.whole_ne_nil hn.no_leading_zero (readExponent_of_stops h.stops)
      fun c hc => ⟨(h.stops c hc).1, (h.stops c hc).2.1⟩
  | some p =>
    obtain ⟨sign, ds⟩ := p
    have hexp := readExponent_digits (.inl rfl) sign (hn.exponent_ne_nil _ _ rfl) h.stops.ends
    rw [exponentText_some]
    exact number_append negative hn.whole_ne_nil hn.no_leading_zero hexp
      fun c hc => Option.some.inj hc ▸ by decide

end Json

end Wireboard
