import Mathlib.Data.List.Sort
import Wireboard.Params

/-!
# What a bag holds

A bag is known by what is stored under each name: names stand in order, each once.

* `get?_insert_self`, `get?_insert_of_ne`: storing under a name is seen under that name only;
* `insert_of_get?`: what is stored already need not be stored again;
* `eq_of_get?`: bags that hold the same under every name are the same, in whatever order it was stored.
-/

namespace Wireboard

namespace Params

theorem eq_of_entries {ps qs : Params} (h : ps.entries = qs.entries) : ps = qs := by
  cases ps
  cases qs
  cases h
  rfl

theorem ascending_names (ps : Params) : (ps.entries.map (·.1)).Pairwise (· < ·) :=
  List.pairwise_map.2 ps.ascending

theorem nodup_names (ps : Params) : (ps.entries.map (·.1)).Nodup := by
  refine ps.ascending_names.imp ?_
  rintro a _ hlt rfl
  exact String.lt_irrefl a hlt

/-! ## looking a name up -/

theorem mem_entries_of_get? {ps : Params} {name : String} {v : Param}
    (h : ps.get? name = some v) : ps.entries.find? (fun e => e.1 == name) = some (name, v) := by
  obtain ⟨e, he, rfl⟩ := Option.map_eq_some_iff.1 h
  have hname : e.1 = name := by simpa using List.find?_some he
  rw [he, ← hname]

theorem get?_eq_some_iff {ps : Params} {name : String} {v : Param} :
    ps.get? name = some v ↔ (name, v) ∈ ps.entries := by
  refine ⟨fun h => List.mem_of_find?_eq_some (mem_entries_of_get? h), fun h => ?_⟩
  have hfound : (ps.entries.find? fun e => e.1 == name).isSome = true :=
    List.find?_isSome.2 ⟨_, h, beq_self_eq_true name⟩
  obtain ⟨e, he⟩ := Option.isSome_iff_exists.1 hfound
  have hname : e.1 = name := by simpa using List.find?_some he
  -- no two entries share a name
  obtain rfl := List.inj_on_of_nodup_map ps.nodup_names (List.mem_of_find?_eq_some he) h hname
  rw [get?, he, Option.map_some]

/-- A bag is determined by what is stored under each name. -/
theorem eq_of_get? {ps qs : Params} (h : ∀ name, ps.get? name = qs.get? name) : ps = qs := by
  have : Std.Irrefl fun a b : String × Param => a.1 < b.1 := ⟨fun a => String.lt_irrefl a.1⟩
  have : Std.Antisymm fun a b : String × Param => a.1 < b.1 :=
    ⟨fun a b hab hba => absurd (String.lt_trans hab hba) (String.lt_irrefl a.1)⟩
  refine eq_of_entries (ps.ascending.eq_of_mem_iff qs.ascending ?_)
  rintro ⟨name, v⟩
  rw [← get?_eq_some_iff, h, get?_eq_some_iff]

/-! ## storing -/

theorem find?_insertEntry_self (name : String) (v : Param) (es : List (String × Param)) :
    (insertEntry name v es).find? (fun e => e.1 == name) = some (name, v) := by
  induction es with
  | nil => simp [insertEntry]
  | cons e es ih =>
    unfold insertEntry
    split
    · simp
    · split
      · simp
      · next hne => rw [List.find?_cons_of_neg (by simpa using Ne.symm hne), ih]

theorem find?_insertEntry_of_ne {name x : String} (h : name ≠ x) (v : Param)
    (es : List (String × Param)) :
    (insertEntry name v es).find? (fun e => e.1 == x) = es.find? fun e => e.1 == x := by
  induction es with
  | nil => simp [insertEntry, h]
  | cons e es ih =>
    unfold insertEntry
    split
    · rw [List.find?_cons_of_neg (by simpa using h)]
    · split
      · next heq =>
        rw [List.find?_cons_of_neg (by simpa using h),
          List.find?_cons_of_neg (by simpa [← heq] using h)]
      · rw [List.find?_cons, List.find?_cons, ih]

@[simp] theorem get?_insert_self (ps : Params) (name : String) (v : Param) :
    (ps.insert name v).get? name = some v := by
  rw [get?, insert, find?_insertEntry_self, Option.map_some]

theorem get?_insert_of_ne (ps : Params) {name x : String} (h : name ≠ x) (v : Param) :
    (ps.insert name v).get? x = ps.get? x := by
  rw [get?, insert, find?_insertEntry_of_ne h, get?]

theorem insert_of_get? {ps : Params} {name : String} {v : Param} (h : ps.get? name = some v) :
    ps.insert name v = ps := by
  refine eq_of_get? fun x => ?_
  by_cases hx : name = x
  · rw [← hx, get?_insert_self, h]
  · exact get?_insert_of_ne ps hx v

end Params

end Wireboard
