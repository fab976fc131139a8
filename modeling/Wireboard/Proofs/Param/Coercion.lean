import Wireboard.Proofs.Diagram.WellFormed
import Wireboard.Proofs.Number.ReadBack

/-!
# What is typed is stored once and for all

An inline editor shows a parameter as a text, and what is typed there is stored as a value.  The kind
of the value is found from the name and from the value before, and the text of a value that was found
so leads to that value again (`Param.coerce_display`).
-/

namespace Wireboard

namespace Param

/-! ## sequences -/

theorem readSequence_blank_cons {c : Char} (hblank : isBlank c = true) (hcomma : c ≠ ',')
    (cs : List Char) : readSequence (c :: cs) = readSequence cs := by
  obtain ⟨field, fields, hsplit⟩ := List.exists_cons_of_ne_nil (List.splitOn_ne_nil ',' cs)
  unfold readSequence
  rw [List.splitOn_cons_eq_if_modifyHead, if_neg (by simpa using hcomma), hsplit,
    List.modifyHead_cons, List.filterMap_cons, List.filterMap_cons,
    Reading.number?_blank_cons hblank]

/-- The numbers of a sequence are read one by one, as they are printed. -/
theorem readSequence_display {xs : List Float} (h : ∀ x ∈ xs, x.isFinite = true) :
    readSequence (display (.sequence xs)).toList = xs := by
  have hcomma : ∀ x : Float, ',' ∉ (Layout.display.doubleText x).toList := fun x hmem =>
    (Layout.solid_of_mem_doubleText hmem).1 rfl
  rw [display]
  induction xs with
  | nil => rfl
  | cons x xs ih =>
    have hx := Reading.number?_doubleText (h x List.mem_cons_self)
    have hxs := ih fun y hy => h y (List.mem_cons_of_mem _ hy)
    cases xs with
    | nil =>
      rw [List.map_cons, List.map_nil, String.intercalate_singleton, readSequence,
        List.splitOn_eq_singleton (hcomma x), List.filterMap_cons, hx]
      rfl
    | cons y ys =>
      rw [List.map_cons] at hxs ⊢
      rw [List.map_cons, String.intercalate_cons_cons, String.toList_append, String.toList_append,
        List.append_assoc, show ", ".toList = [',', ' '] from rfl, List.cons_append,
        List.singleton_append, readSequence, List.splitOn_append_cons_self_of_not_mem (hcomma x),
        List.filterMap_cons, hx]
      change x :: readSequence (' ' :: _) = _
      rw [readSequence_blank_cons (by decide) (by decide), hxs]

/-! ## the kinds -/

variable {name raw : String} {current : Option Param}

/-- Which rule a value was found by. -/
inductive Coerced (name raw : String) (current : Option Param) : Param → Prop where
  | sequence (shape : isShapeName name = true) :
      Coerced name raw current (.sequence (readSequence raw.toList))
  | number (shape : isShapeName name = false) (x : Float)
      (isNumber : Reading.number? raw.toList = some x) : Coerced name raw current (.number x)
  | flag (shape : isShapeName name = false) (noNumber : Reading.number? raw.toList = none)
      (b b' : Bool) (wasFlag : current = some (.flag b')) (isFlag : readFlag? raw = some b) :
      Coerced name raw current (.flag b)
  | text (shape : isShapeName name = false) (noNumber : Reading.number? raw.toList = none)
      (noFlag : ∀ b b', current = some (.flag b') → readFlag? raw ≠ some b) :
      Coerced name raw current (.text raw)

theorem coerced (name raw : String) (current : Option Param) :
    Coerced name raw current (coerce name raw current) := by
  unfold coerce
  cases hshape : isShapeName name with
  | true => exact .sequence hshape
  | false =>
    rw [if_neg Bool.false_ne_true]
    cases hx : Reading.number? raw.toList with
    | some x => exact .number hshape x hx
    | none =>
      dsimp only
      split
      · next b' b hb => exact .flag hshape hx b b' rfl hb
      · next hno => exact .text hshape hx fun b b' hcurrent hb => hno b' b hcurrent hb

/-- No two rules apply at once. -/
theorem Coerced.eq_coerce {v : Param} (h : Coerced name raw current v) :
    coerce name raw current = v := by
  unfold coerce
  cases h with
  | sequence shape => rw [if_pos shape]
  | number shape x isNumber => rw [shape, if_neg Bool.false_ne_true, isNumber]
  | flag shape noNumber b b' wasFlag isFlag =>
    rw [shape, if_neg Bool.false_ne_true, noNumber, wasFlag, isFlag]
  | text shape noNumber noFlag =>
    rw [shape, if_neg Bool.false_ne_true, noNumber]
    dsimp only
    split
    · next b' b hb => exact absurd hb (noFlag b b' rfl)
    · rfl

/-! ## confirming -/

/-- The value is stored again when its text is confirmed without typing. -/
def Settled (name : String) (v : Param) : Prop := coerce name v.display (some v) = v

instance (name : String) (v : Param) : Decidable (Settled name v) :=
  inferInstanceAs (Decidable (_ = _))

/-- Typed values are: each is found by the same rule again, since its text is read as what it was
printed from. -/
theorem settled_coerce (name raw : String) (current : Option Param) :
    Settled name (coerce name raw current) := by
  have hfinite : ∀ x ∈ (coerce name raw current).numbers, x.isFinite = true := isFinite_coerce
  have h := coerced name raw current
  generalize coerce name raw current = v at h hfinite
  cases h with
  | sequence shape =>
    have hread : readSequence (display (.sequence (readSequence raw.toList))).toList
        = readSequence raw.toList := readSequence_display hfinite
    exact (Coerced.sequence shape).eq_coerce.trans (congrArg Param.sequence hread)
  | number shape x isNumber =>
    have hx : x.isFinite = true := hfinite x (List.mem_singleton.2 rfl)
    exact (Coerced.number shape x (Reading.number?_doubleText hx)).eq_coerce
  | flag shape noNumber b b' wasFlag isFlag =>
    refine (Coerced.flag shape ?_ b b rfl ?_).eq_coerce
    · cases b <;> rfl
    · cases b <;> rfl
  | text shape noNumber noFlag =>
    exact (Coerced.text shape noNumber fun _ _ hflag => absurd hflag (by simp)).eq_coerce

theorem exists_sequence_iff :
    (∃ xs, coerce name raw current = .sequence xs) ↔ "Shape".toList <:+: name.toList := by
  have h := coerced name raw current
  rw [← hasWord_iff]
  change _ ↔ isShapeName name = true
  generalize coerce name raw current = v at h
  cases h with
  | sequence shape => exact iff_of_true ⟨_, rfl⟩ shape
  | number shape => simp [shape]
  | flag shape => simp [shape]
  | text shape => simp [shape]

theorem exists_flag_of_coerce {b : Bool} (h : coerce name raw current = .flag b) :
    ∃ b', current = some (.flag b') := by
  have hcoerced := coerced name raw current
  rw [h] at hcoerced
  cases hcoerced with
  | flag shape noNumber b b' wasFlag isFlag => exact ⟨b', wasFlag⟩

/-- **A typed text is stored once and for all.**  The rules do not get in one another's way: a value that
was found by one of them is found by it again from its own text, whatever was stored before.
Sequences come from the names that have `Shape` in them and from no others, flags from flags only, and
numbers are finite. -/
theorem coerce_display (name raw : String) (current : Option Param) :
    let v := coerce name raw current
    coerce name v.display (some v) = v ∧
    ((∃ xs, v = .sequence xs) ↔ "Shape".toList <:+: name.toList) ∧
    (∀ b, v = .flag b → ∃ b', current = some (.flag b')) ∧
    ∀ x ∈ v.numbers, x.isFinite = true :=
  ⟨settled_coerce name raw current, exists_sequence_iff, fun _ => exists_flag_of_coerce,
    isFinite_coerce⟩

end Param

end Wireboard
