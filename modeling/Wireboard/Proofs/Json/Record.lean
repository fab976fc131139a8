import Mathlib.Data.List.Nodup
import Wireboard.Json.Record

/-!
# Records and lists are decoded as they are encoded

* `record?_object`: an object with distinct names, given as a record, has its fields looked up by
  name; fields that it lacks are absent.
* `mapM_map_eq_some`, `mapM_map_eq_none`: a list is decoded item by item, and fails if one of them
  does.
* `record?_obj_eq_some_iff`, `record?_arr_eq_some_iff`: in which objects and lists a record of one
  field has it.
-/

namespace Wireboard.Json

/-! ## lists -/

variable {β γ δ : Type}

theorem mapM_map_eq_map {f : γ → Option δ} {g : β → γ} {k : β → δ} {xs : List β}
    (h : ∀ x ∈ xs, f (g x) = some (k x)) : (xs.map g).mapM f = some (xs.map k) := by
  induction xs with
  | nil => rfl
  | cons x xs ih =>
    have hxs := ih fun y hy => h y (List.mem_cons_of_mem _ hy)
    rw [List.map_cons, List.mapM_cons, h x List.mem_cons_self, hxs]
    rfl

theorem mapM_map_eq_some {f : γ → Option β} {g : β → γ} {xs : List β}
    (h : ∀ x ∈ xs, f (g x) = some x) : (xs.map g).mapM f = some xs := by
  rw [mapM_map_eq_map (k := fun x => x) h, List.map_id']

theorem mapM_map_eq_none {f : γ → Option β} {g : β → γ} {xs : List β} {x : β} (hx : x ∈ xs)
    (h : f (g x) = none) : (xs.map g).mapM f = none := by
  induction xs with
  | nil => cases hx
  | cons y xs ih =>
    rw [List.map_cons, List.mapM_cons]
    rcases List.mem_cons.1 hx with rfl | hx
    · simp [h]
    · rw [ih hx]
      cases f (g y) <;> rfl

/-! ## objects -/

theorem named?_object (members : List (String × Json)) :
    named? (members.map fun m => (some m.1, m.2)) = some members :=
  mapM_map_eq_some fun _ _ => rfl

theorem named?_eq_some_iff {members : List (Option String × Json)} {ms : List (String × Json)} :
    named? members = some ms ↔ members = ms.map fun m => (some m.1, m.2) := by
  constructor
  · intro h
    induction members generalizing ms with
    | nil =>
      cases h
      rfl
    | cons m members ih =>
      obtain ⟨k, v⟩ := m
      cases k with
      | none => cases h
      | some k =>
        rw [named?, List.mapM_cons] at h
        obtain ⟨ms', hms, rfl⟩ : ∃ ms', named? members = some ms' ∧ (k, v) :: ms' = ms := by
          simpa [named?, Option.bind_eq_some_iff] using h
        rw [List.map_cons, ← ih hms]
  · rintro rfl
    exact named?_object ms

theorem exists_named? {members : List (Option String × Json)} (h : ∀ m ∈ members, m.1 ≠ none) :
    ∃ ms, named? members = some ms := by
  induction members with
  | nil => exact ⟨[], rfl⟩
  | cons m members ih =>
    obtain ⟨hm, hmembers⟩ := List.forall_mem_cons.1 h
    obtain ⟨k, hk⟩ := Option.ne_none_iff_exists'.1 hm
    obtain ⟨ms, hms⟩ := ih hmembers
    refine ⟨(k, m.2) :: ms, named?_eq_some_iff.2 ?_⟩
    rw [List.map_cons, ← named?_eq_some_iff.1 hms, ← hk]

/-- Of members with distinct names, a field is the one with its name. -/
theorem field?_eq_lookup {members : List (String × Json)} (h : (members.map Prod.fst).Nodup)
    (name : String) : field? [name] members = some (members.lookup name) := by
  have hfilter : members.filter (fun m => [name].contains m.1) =
      ((members.lookup name).map fun v => (name, v)).toList := by
    induction members with
    | nil => rfl
    | cons m members ih =>
      obtain ⟨k, v⟩ := m
      rw [List.map_cons, List.nodup_cons] at h
      rw [List.filter_cons, ih h.2, List.lookup_cons]
      by_cases hk : k = name
      · subst hk
        have hnone : members.lookup k = none := by
          rw [List.lookup_eq_none_iff]
          intro p hp
          have hne : k ≠ p.1 := fun he => h.1 (List.mem_map.2 ⟨p, hp, he.symm⟩)
          simpa using hne
        simp [hnone]
      · simp [hk, show (name == k) = false by simpa using fun he => hk he.symm]
  rw [field?, hfilter]
  cases members.lookup name <;> rfl

theorem record?_object (names : List String) (members : List (String × Json))
    (h : (members.map Prod.fst).Nodup) :
    record? (names.map fun name => [name]) (object members) =
      some (names.map fun name => members.lookup name) := by
  rw [object, record?, named?_object]
  exact mapM_map_eq_map fun name _ => field?_eq_lookup h name

/-- A member is the field just when it has one of the names and no other member does. -/
theorem field?_eq_some_some_iff {names : List String} {members : List (String × Json)} {v : Json} :
    field? names members = some (some v) ↔ ∃ before key after,
      members = before ++ (key, v) :: after ∧ key ∈ names ∧ ∀ m ∈ before ++ after, m.1 ∉ names := by
  have hfilter : field? names members = some (some v) ↔
      ∃ key, members.filter (fun m => names.contains m.1) = [(key, v)] := by
    rw [field?]
    generalize members.filter (fun m => names.contains m.1) = ms
    rcases ms with _ | ⟨⟨key, w⟩, _ | ⟨m, ms⟩⟩ <;> simp
  rw [hfilter]
  simp only [List.filter_eq_cons_iff, List.filter_eq_nil_iff, List.contains_iff_mem]
  constructor
  · rintro ⟨key, before, after, rfl, hbefore, hkey, hafter⟩
    exact ⟨before, key, after, rfl, hkey, List.forall_mem_append.2 ⟨hbefore, hafter⟩⟩
  · rintro ⟨before, key, after, rfl, hkey, hothers⟩
    obtain ⟨hbefore, hafter⟩ := List.forall_mem_append.1 hothers
    exact ⟨key, before, after, rfl, hbefore, hkey, hafter⟩

/-- A record of one field in an object. -/
theorem record?_obj_eq_some_iff {names : List String} {members : List (Option String × Json)}
    {v : Json} : record? [names] (.obj members) = some [some v] ↔
      ∃ ms, named? members = some ms ∧ field? names ms = some (some v) := by
  rw [record?]
  cases named? members with
  | none => simp
  | some ms => cases hfield : field? names ms <;> simp [hfield]

/-- A record of one field in a list. -/
theorem record?_arr_eq_some_iff {names : List String} {items : List Json} {v : Json} :
    record? [names] (.arr items) = some [some v] ↔ items = [v] := by
  rcases items with _ | ⟨w, _ | ⟨u, items⟩⟩ <;> simp [record?]

end Wireboard.Json
