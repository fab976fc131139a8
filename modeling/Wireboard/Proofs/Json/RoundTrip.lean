import Mathlib.Data.List.DropRight
import Wireboard.Json.Printer
import Wireboard.Proofs.Json.Number
import Wireboard.Proofs.Json.Quoted

/-!
# Trees are read as they are written

Reading undoes writing, in both forms, for every tree whose literals are numbers of JSON
(`parse?_print`).  The induction is on the tree.  What it carries is `ReadsBack`: the text of a value
is read up to its end, whatever may follow it there, in no more steps than it has characters.
-/

namespace Wireboard.Json

/-- All literals in the tree are numbers of JSON. -/
inductive Legible : Json → Prop
  | null : Legible .null
  | bool (b : Bool) : Legible (.bool b)
  | num {n : Literal} (h : n.WellFormed) : Legible (.num n)
  | str (s : Option String) : Legible (.str s)
  | arr {vs : List Json} (h : ∀ v ∈ vs, Legible v) : Legible (.arr vs)
  | obj {ms : List (Option String × Json)} (h : ∀ m ∈ ms, Legible m.2) : Legible (.obj ms)

/-- The value is read back from its text, wherever this stands. -/
def ReadsBack (v : Json) : Prop :=
  ∀ (f : Form) (level n : Nat) (rest : List Char), Follows rest →
    (render f level v).length ≤ n → value (n + 1) (render f level v ++ rest) = some (v, rest)

/-! ## blanks -/

theorem skip_cons {c : Char} (h : isGap c = false) (cs : List Char) : skip (c :: cs) = c :: cs := by
  rw [skip, List.dropWhile_cons_of_neg (by simp [h])]

theorem skip_line (f : Form) (level : Nat) (cs : List Char) :
    skip (f.line level ++ cs) = skip cs := by
  cases f with
  | compact => rfl
  | pretty =>
    have hgaps : ∀ c ∈ Form.pretty.line level, isGap c = true := by
      intro c hc
      rcases List.mem_cons.1 hc with rfl | hc
      · rfl
      · rw [List.eq_of_mem_replicate hc]
        rfl
    exact List.dropWhile_append_of_pos hgaps

theorem value_line (f : Form) (level n : Nat) (cs : List Char) :
    value n (f.line level ++ cs) = value n cs := by
  cases n with
  | zero => rfl
  | succ n => simp only [value, skip_line]

theorem skip_skip (cs : List Char) : skip (skip cs) = skip cs :=
  List.dropWhile_idempotent isGap cs

theorem items_skip (n : Nat) (cs : List Char) : items n (skip cs) = items n cs := by
  cases n with
  | zero => rfl
  | succ n =>
    cases n with
    | zero => simp only [items, value]
    | succ n => simp only [items, value, skip_skip]

theorem members_skip (n : Nat) (cs : List Char) : members n (skip cs) = members n cs := by
  cases n with
  | zero => rfl
  | succ n => simp only [members, skip_skip]

theorem members_line (f : Form) (level n : Nat) (cs : List Char) :
    members n (f.line level ++ cs) = members n cs := by
  cases n with
  | zero => rfl
  | succ n => simp only [members, skip_line]

theorem follows_line (f : Form) (level : Nat) {c : Char} (hc : c ∈ [',', '\n', ']', '}'])
    (cs : List Char) : Follows (f.line level ++ c :: cs) := by
  cases f with
  | compact => exact fun x hx => Option.some.inj hx ▸ hc
  | pretty => exact fun x hx => Option.some.inj hx ▸ by decide

/-! ## strings and numbers -/

theorem exists_stringText (s : Option String) :
    ∃ t, stringText s = '"' :: t ∧ ∀ rest, string (t ++ rest) = some (s, rest) := by
  cases s with
  | none =>
    have htext : stringText none = '"' :: ['\\', 'u', 'd', '8', '0', '0', '"'] := by decide
    exact ⟨_, htext, fun rest => by simp [string, Quoted.body_half]⟩
  | some s =>
    refine ⟨s.toList.flatMap Quoted.escape ++ ['"'], rfl, fun rest => ?_⟩
    rw [string, List.append_assoc]
    simp [Quoted.body_encode]

/-- A text that begins with neither a blank nor the first character of another value is read as a
number. -/
theorem value_of_other {c : Char} (hgap : isGap c = false)
    (hc : c ∉ ['{', '[', '"', 't', 'f', 'n']) (cs : List Char) (k : Nat) :
    value (k + 1) (c :: cs) = (number (c :: cs)).map fun q => (.num q.1, q.2) := by
  simp only [List.mem_cons, List.not_mem_nil, or_false, not_or] at hc
  obtain ⟨hbrace, hbracket, hquote, ht, hf, hn⟩ := hc
  rw [value, skip_cons hgap]
  split <;> simp_all

theorem number_eq_none {c : Char}
    (hc : c ∈ [' ', '\t', '\n', '\r', '{', '[', '"', 't', 'f', 'n']) (cs : List Char) :
    number (c :: cs) = none := by
  simp only [List.mem_cons, List.not_mem_nil, or_false] at hc
  rcases hc with rfl | rfl | rfl | rfl | rfl | rfl | rfl | rfl | rfl | rfl <;> rfl

/-- What a number is read from begins neither with a blank nor as another value. -/
theorem value_of_number {cs rest : List Char} {n : Literal} (h : number cs = some (n, rest))
    (k : Nat) : value (k + 1) cs = some (.num n, rest) := by
  cases cs with
  | nil => cases h
  | cons c cs =>
    have hc : c ∉ [' ', '\t', '\n', '\r', '{', '[', '"', 't', 'f', 'n'] := fun hc => by
      rw [number_eq_none hc] at h
      cases h
    simp only [List.mem_cons, not_or] at hc
    obtain ⟨hspace, htab, hline, hreturn, hc⟩ := hc
    have hgap : isGap c = false := by simp [isGap, hspace, htab, hline, hreturn]
    rw [value_of_other hgap (by simpa using hc), h, Option.map_some]

/-! ## what stands between brackets -/

theorem follows_renderItems (f : Form) (level : Nat) (vs : List Json) (rest : List Char) :
    Follows (renderItems f (level + 1) vs ++ (f.line level ++ ']' :: rest)) := by
  cases vs with
  | nil => exact follows_line f level (by decide) rest
  | cons v vs => exact fun c hc => Option.some.inj hc ▸ by decide

theorem follows_renderMembers (f : Form) (level : Nat) (ms : List (Option String × Json))
    (rest : List Char) :
    Follows (renderMembers f (level + 1) ms ++ (f.line level ++ '}' :: rest)) := by
  cases ms with
  | nil => exact follows_line f level (by decide) rest
  | cons m ms => exact fun c hc => Option.some.inj hc ▸ by decide

theorem items_bracket (n : Nat) (cs : List Char) : items n (']' :: cs) = none := by
  rcases n with _ | _ | n
  · rfl
  · rfl
  · have hnumber : number (']' :: cs) = none := rfl
    rw [items, value_of_other (by decide) (by decide), hnumber]
    rfl

theorem members_brace (n : Nat) (cs : List Char) : members n ('}' :: cs) = none := by
  cases n <;> rfl

/-- Items are read up to the closing bracket.  An item takes one step more than its value does, for
which the comma in front of it pays. -/
theorem items_render (f : Form) (level : Nat) (rest : List Char) :
    ∀ {vs : List Json} {v : Json} {n : Nat}, (∀ w ∈ v :: vs, ReadsBack w) →
      (render f (level + 1) v).length + (renderItems f (level + 1) vs).length ≤ n →
      items (n + 2) (f.line (level + 1) ++ (render f (level + 1) v ++
        (renderItems f (level + 1) vs ++ (f.line level ++ ']' :: rest)))) = some (v :: vs, rest) := by
  intro vs
  induction vs with
  | nil =>
    intro v n hread hn
    have hv := hread v List.mem_cons_self f (level + 1) n _
      (follows_renderItems f level [] rest) (by omega)
    rw [items, value_line, hv]
    simp [renderItems, skip_line, skip_cons (show isGap ']' = false by decide)]
  | cons w vs ih =>
    intro v n hread hn
    have hv := hread v List.mem_cons_self f (level + 1) n _
      (follows_renderItems f level (w :: vs) rest) (by omega)
    simp only [renderItems, List.length_cons, List.length_append] at hn
    obtain ⟨m, rfl⟩ : ∃ m, n = m + 1 := ⟨n - 1, by omega⟩
    have hvs := ih (v := w) (n := m) (fun u hu => hread u (List.mem_cons_of_mem _ hu)) (by omega)
    rw [items, value_line, hv]
    simp [renderItems, skip_cons (show isGap ',' = false by decide), hvs]

/-- After a name, a colon is read, and a value with or without a blank in front of it. -/
theorem exists_colon (f : Form) (cs : List Char) :
    ∃ cs', skip (f.colon ++ cs) = ':' :: cs' ∧ ∀ n, value n cs' = value n cs := by
  cases f with
  | compact => exact ⟨cs, rfl, fun _ => rfl⟩
  | pretty =>
    refine ⟨' ' :: cs, rfl, fun n => ?_⟩
    cases n with
    | zero => rfl
    | succ n => simp only [value, show skip (' ' :: cs) = skip cs from rfl]

/-- Members are read up to the closing brace, with steps counted as for items. -/
theorem members_render (f : Form) (level : Nat) (rest : List Char) :
    ∀ {ms : List (Option String × Json)} {k : Option String} {v : Json} {n : Nat},
      (∀ m ∈ (k, v) :: ms, ReadsBack m.2) →
      (render f (level + 1) v).length + (renderMembers f (level + 1) ms).length ≤ n →
      members (n + 2) (f.line (level + 1) ++ (stringText k ++ (f.colon ++ (render f (level + 1) v ++
        (renderMembers f (level + 1) ms ++ (f.line level ++ '}' :: rest)))))) =
        some ((k, v) :: ms, rest) := by
  intro ms
  induction ms with
  | nil =>
    intro k v n hread hn
    have hreadv : ReadsBack v := hread (k, v) List.mem_cons_self
    have hv := hreadv f (level + 1) n _ (follows_renderMembers f level [] rest) (by omega)
    obtain ⟨t, ht, hname⟩ := exists_stringText k
    obtain ⟨cs, hcs, hvalue⟩ := exists_colon f (render f (level + 1) v ++
      (renderMembers f (level + 1) [] ++ (f.line level ++ '}' :: rest)))
    rw [members_line, members, ht, List.cons_append, skip_cons (by decide)]
    simp only [hname, hcs, hvalue, hv]
    simp [renderMembers, skip_line, skip_cons (show isGap '}' = false by decide)]
  | cons w ms ih =>
    intro k v n hread hn
    obtain ⟨k', w⟩ := w
    have hreadv : ReadsBack v := hread (k, v) List.mem_cons_self
    have hv := hreadv f (level + 1) n _
      (follows_renderMembers f level ((k', w) :: ms) rest) (by omega)
    simp only [renderMembers, List.length_cons, List.length_append] at hn
    obtain ⟨m, rfl⟩ : ∃ m, n = m + 1 := ⟨n - 1, by omega⟩
    have hms := ih (k := k') (v := w) (n := m) (fun u hu => hread u (List.mem_cons_of_mem _ hu))
      (by omega)
    obtain ⟨t, ht, hname⟩ := exists_stringText k
    obtain ⟨cs, hcs, hvalue⟩ := exists_colon f (render f (level + 1) v ++
      (renderMembers f (level + 1) ((k', w) :: ms) ++ (f.line level ++ '}' :: rest)))
    rw [members_line, members, ht, List.cons_append, skip_cons (by decide)]
    simp only [hname, hcs, hvalue, hv]
    simp [renderMembers, skip_cons (show isGap ',' = false by decide), hms]

/-! ## values -/

theorem value_arr {n : Nat} {cs rest : List Char} {vs : List Json}
    (h : items n cs = some (vs, rest)) : value (n + 1) ('[' :: cs) = some (.arr vs, rest) := by
  rw [← items_skip] at h
  rw [value, skip_cons (by decide)]
  simp only
  split
  · next hskip =>
    rw [hskip, items_bracket] at h
    cases h
  · rw [h, Option.map_some]

theorem value_obj {n : Nat} {cs rest : List Char} {ms : List (Option String × Json)}
    (h : members n cs = some (ms, rest)) : value (n + 1) ('{' :: cs) = some (.obj ms, rest) := by
  rw [← members_skip] at h
  rw [value, skip_cons (by decide)]
  simp only
  split
  · next hskip =>
    rw [hskip, members_brace] at h
    cases h
  · rw [h, Option.map_some]

theorem Legible.readsBack {v : Json} (hv : Legible v) : ReadsBack v := by
  induction hv with
  | null => exact fun _ _ _ _ _ _ => rfl
  | bool b => cases b <;> exact fun _ _ _ _ _ _ => rfl
  | num h => exact fun _ _ n _ hrest _ => value_of_number (number_text_append h hrest) n
  | str s =>
    intro f level n rest _ _
    obtain ⟨t, ht, hstring⟩ := exists_stringText s
    rw [render, ht, List.cons_append, value, skip_cons (by decide)]
    simp only [hstring, Option.map_some]
  | @arr vs _ ih =>
    intro f level n rest _ hn
    cases vs with
    | nil => rfl
    | cons v vs =>
      simp only [render, List.length_cons, List.length_append] at hn
      obtain ⟨m, rfl⟩ : ∃ m, n = m + 2 := ⟨n - 2, by omega⟩
      have hitems := items_render f level rest (n := m) ih (by omega)
      rw [render, List.cons_append]
      refine value_arr ?_
      simpa using hitems
  | @obj ms _ ih =>
    intro f level n rest _ hn
    cases ms with
    | nil => rfl
    | cons w ms =>
      obtain ⟨k, v⟩ := w
      simp only [render, List.length_cons, List.length_append] at hn
      obtain ⟨m, rfl⟩ : ∃ m, n = m + 2 := ⟨n - 2, by omega⟩
      have hmembers := members_render f level rest (n := m) ih (by omega)
      rw [render, List.cons_append]
      refine value_obj ?_
      simpa using hmembers

theorem legible_object {members : List (String × Json)} (h : ∀ m ∈ members, m.2.Legible) :
    (object members).Legible := by
  refine .obj fun m hm => ?_
  obtain ⟨m', hm', rfl⟩ := List.mem_map.1 hm
  exact h m' hm'

/-- **Reading undoes writing.**  Every tree whose literals are numbers of JSON is read back from its
text, whether compact or pretty. -/
theorem parse?_print {v : Json} (hv : Legible v) (f : Form) : parse? (v.print f) = some v := by
  have hread := hv.readsBack f 0 (render f 0 v).length [] (fun c hc => nomatch hc) le_rfl
  rw [List.append_nil] at hread
  rw [parse?, print, String.toList_ofList]
  simp [hread, skip]

end Wireboard.Json
