import Wireboard.Proofs.Number.Typed
import Wireboard.Proofs.Param.Coercion

/-!
# Sequences are read field by field

A sequence is typed as numbers with commas between them, and what is no number is passed over.  All
there is to say of this follows from one equation: the numbers of two texts with a comma between them
are those of the first text, and then those of the second one (`readSequence_append_comma`).

* `Fields`: every text is fields with commas between them in one way (`fields_iff`);
* `NumbersOf`: the numbers among some fields, each by the rules for a number that is typed;
* `coerce_fields`: these are what is stored, whatever was stored before.
-/

namespace Wireboard

namespace Param

/-! ## commas -/

theorem readSequence_append_comma (cs cs' : List Char) :
    readSequence (cs ++ ',' :: cs') = readSequence cs ++ readSequence cs' := by
  unfold readSequence
  rw [List.splitOn_append_cons_self, List.filterMap_append]

theorem no_comma_of_mem_splitOn (cs : List Char) : ∀ f ∈ cs.splitOn ',', ',' ∉ f := by
  induction hn : cs.length using Nat.strong_induction_on generalizing cs with
  | _ n ih =>
    intro f hf
    by_cases hcomma : ',' ∈ cs
    · -- the first field ends where the first comma is, and the others are those of what follows it
      obtain ⟨first, rest, rfl, hfirst⟩ := List.eq_append_cons_of_mem hcomma
      rw [List.splitOn_append_cons_self_of_not_mem hfirst] at hf
      rcases List.mem_cons.1 hf with rfl | hf
      · exact hfirst
      · refine ih rest.length ?_ rest rfl f hf
        rw [← hn, List.length_append, List.length_cons]
        omega
    · rw [List.splitOn_eq_singleton hcomma, List.mem_singleton] at hf
      exact hf ▸ hcomma

/-! ## fields -/

/-- The text is these fields with commas between them, and has no other commas. -/
structure Fields (raw : String) (fields : List String) : Prop where
  joined : ",".intercalate fields = raw
  ne_nil : fields ≠ []
  no_comma : ∀ f ∈ fields, ',' ∉ f.toList

theorem fields_iff {raw : String} {fields : List String} :
    Fields raw fields ↔ fields = (raw.toList.splitOn ',').map String.ofList := by
  have hcomma : ",".toList = [','] := rfl
  constructor
  · rintro ⟨rfl, hne, hno⟩
    have hsplit : ([','].intercalate (fields.map String.toList)).splitOn ',' =
        fields.map String.toList :=
      List.splitOn_intercalate ',' (List.forall_mem_map.2 hno) (by simpa using hne)
    rw [String.toList_intercalate, hcomma, hsplit, List.map_map]
    simp [Function.comp_def]
  · rintro rfl
    refine ⟨?_, ?_, ?_⟩
    · rw [← String.toList_inj, String.toList_intercalate, hcomma, List.map_map]
      simp [Function.comp_def, List.intercalate_splitOn]
    · exact fun h => List.splitOn_ne_nil ',' raw.toList (List.map_eq_nil_iff.1 h)
    · rw [List.forall_mem_map]
      intro f hf
      rw [String.toList_ofList]
      exact no_comma_of_mem_splitOn raw.toList f hf

/-! ## numbers -/

/-- The numbers among some fields, in their order. -/
inductive NumbersOf : List String → List Float → Prop
  | nil : NumbersOf [] []
  | number {f : String} {x : Float} {fields : List String} {xs : List Float}
      (isNumber : Reading.Numeral f.toList x) (others : NumbersOf fields xs) :
      NumbersOf (f :: fields) (x :: xs)
  | other {f : String} {fields : List String} {xs : List Float}
      (noNumber : ∀ x, ¬ Reading.Numeral f.toList x) (others : NumbersOf fields xs) :
      NumbersOf (f :: fields) xs

theorem numbersOf_filterMap (fields : List String) :
    NumbersOf fields (fields.filterMap fun f => Reading.number? f.toList) := by
  induction fields with
  | nil => exact .nil
  | cons f fields ih =>
    rw [List.filterMap_cons]
    cases hf : Reading.number? f.toList with
    | some x => exact .number (Reading.number?_eq_some_iff.1 hf) ih
    | none =>
      refine .other (fun x hx => ?_) ih
      rw [Reading.number?_eq_some_iff.2 hx] at hf
      cases hf

/-- They are determined by the fields, one by one. -/
theorem NumbersOf.unique {fields : List String} {xs ys : List Float} (hx : NumbersOf fields xs)
    (hy : NumbersOf fields ys) : ys = xs := by
  induction hx generalizing ys with
  | nil =>
    cases hy
    rfl
  | number isNumber others ih =>
    cases hy with
    | number isNumber' others' => rw [isNumber.unique isNumber', ih others']
    | other noNumber => exact absurd isNumber (noNumber _)
  | other noNumber others ih =>
    cases hy with
    | number isNumber => exact absurd isNumber (noNumber _)
    | other noNumber' others' => exact ih others'

theorem NumbersOf.eq_nil_iff {fields : List String} {xs : List Float} (h : NumbersOf fields xs) :
    xs = [] ↔ ∀ f ∈ fields, ∀ x, ¬ Reading.Numeral f.toList x := by
  induction h with
  | nil => simp
  | number isNumber others ih =>
    refine iff_of_false (List.cons_ne_nil _ _) fun h => ?_
    exact h _ List.mem_cons_self _ isNumber
  | other noNumber others ih =>
    rw [ih, List.forall_mem_cons]
    exact (and_iff_right noNumber).symm

theorem numbersOf_readSequence {raw : String} {fields : List String} (h : Fields raw fields) :
    NumbersOf fields (readSequence raw.toList) := by
  have hread : readSequence raw.toList = fields.filterMap fun f => Reading.number? f.toList := by
    rw [fields_iff.1 h, List.filterMap_map]
    simp [readSequence]
  rw [hread]
  exact numbersOf_filterMap fields

variable {name : String}

theorem coerce_of_shape (shape : "Shape".toList <:+: name.toList) (raw : String)
    (current : Option Param) : coerce name raw current = .sequence (readSequence raw.toList) :=
  (Coerced.sequence (hasWord_iff.2 shape)).eq_coerce

/-- **Sequences are read field by field.**  Under a name for sequences, whatever was stored there, two
texts with a comma between them are stored as the sequence of the first one followed by that of the
second one.  So the numbers among the fields of a text are stored, each of them once and in their
order, and nothing else is, however many commas and blanks there are; without any number among the
fields the sequence is empty. -/
theorem coerce_fields (shape : "Shape".toList <:+: name.toList) (current : Option Param) :
    (∀ a b, ∃ xs ys, coerce name a current = .sequence xs ∧ coerce name b current = .sequence ys ∧
      coerce name (a ++ "," ++ b) current = .sequence (xs ++ ys)) ∧
    ∀ raw, (∃! fields, Fields raw fields) ∧ ∀ fields, Fields raw fields →
      ∃ xs, coerce name raw current = .sequence xs ∧ (∀ ys, NumbersOf fields ys ↔ ys = xs) ∧
        (xs = [] ↔ ∀ f ∈ fields, ∀ x, ¬ Reading.Numeral f.toList x) := by
  refine ⟨fun a b => ?_, fun raw => ⟨?_, fun fields h => ?_⟩⟩
  · have hjoined : (a ++ "," ++ b).toList = a.toList ++ ',' :: b.toList := by
      rw [String.toList_append, String.toList_append, List.append_assoc]
      rfl
    refine ⟨_, _, coerce_of_shape shape a current, coerce_of_shape shape b current, ?_⟩
    rw [coerce_of_shape shape, hjoined, readSequence_append_comma]
  · exact ⟨_, fields_iff.2 rfl, fun _ h => fields_iff.1 h⟩
  · have hnumbers := numbersOf_readSequence h
    refine ⟨_, coerce_of_shape shape raw current, fun ys => ⟨hnumbers.unique, ?_⟩, hnumbers.eq_nil_iff⟩
    rintro rfl
    exact hnumbers

/-- A number that is too great is passed over, and so are an empty field and a word; a point may be at
either end of the digits, and the blanks need not be those of ASCII. -/
theorem coerce_fields_overflow :
    let a := " 1e400, +.5"
    let b := ",x, 2.\u3000"
    let fields := [" 1e400", " +.5", "", "x", " 2.\u3000"]
    "Shape".toList <:+: "kernelShape".toList ∧ Fields (a ++ "," ++ b) fields ∧
      coerce "kernelShape" (a ++ "," ++ b) (some (.flag true)) = .sequence ([0.5] ++ [2.0]) ∧
      NumbersOf fields [0.5, 2.0] := by
  intro a b fields
  have shape : "Shape".toList <:+: "kernelShape".toList := hasWord_iff.1 (by decide)
  have hfields : Fields (a ++ "," ++ b) fields := fields_iff.2 (by decide +kernel)
  obtain ⟨hcomma, hnumbers⟩ := coerce_fields shape (some (.flag true))
  obtain ⟨xs, ys, hxs, hys, hstored⟩ := hcomma a b
  obtain ⟨zs, hzs, hexact, -⟩ := (hnumbers (a ++ "," ++ b)).2 fields hfields
  have ha : coerce "kernelShape" a (some (.flag true)) = .sequence [0.5] := by decide +kernel
  have hb : coerce "kernelShape" b (some (.flag true)) = .sequence [2.0] := by decide +kernel
  obtain rfl : [0.5] = xs := Param.sequence.inj (ha.symm.trans hxs)
  obtain rfl : [2.0] = ys := Param.sequence.inj (hb.symm.trans hys)
  obtain rfl : [0.5, 2.0] = zs := Param.sequence.inj (hstored.symm.trans hzs)
  exact ⟨shape, hfields, hstored, (hexact _).2 rfl⟩

end Param

end Wireboard
