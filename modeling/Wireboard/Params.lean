import Wireboard.Param

/-!
# Parameter bags

The parameters of a node, by name.  Names stand in the order of their code points, each once, so a
bag is determined by what is stored under each name.
-/

namespace Wireboard

/-- Parameters by name, in ascending order. -/
structure Params where
  entries : List (String × Param)
  ascending : entries.Pairwise fun a b => a.1 < b.1
  deriving DecidableEq

namespace Params

/-- No parameters. -/
def empty : Params := ⟨[], .nil⟩

/-- The value under a name. -/
def get? (ps : Params) (name : String) : Option Param :=
  (ps.entries.find? fun e => e.1 == name).map (·.2)

/-! ### Storing -/

/-- Puts a value under a name at its place in the order, over the one that is there. -/
def insertEntry (name : String) (v : Param) : List (String × Param) → List (String × Param)
  | [] => [(name, v)]
  | e :: es =>
    if name < e.1 then (name, v) :: e :: es
    else if name = e.1 then (name, v) :: es
    else e :: insertEntry name v es

theorem mem_insertEntry {name : String} {v : Param} {es : List (String × Param)}
    {e : String × Param} (h : e ∈ insertEntry name v es) : e = (name, v) ∨ e ∈ es := by
  induction es with
  | nil => simpa [insertEntry] using h
  | cons a es ih =>
    unfold insertEntry at h
    split at h
    · simpa using h
    · split at h
      · rcases List.mem_cons.1 h with h | h <;> simp [h]
      · rcases List.mem_cons.1 h with h | h
        · simp [h]
        · rcases ih h with h | h <;> simp [h]

theorem ascending_insertEntry {name : String} {v : Param} {es : List (String × Param)}
    (h : es.Pairwise fun a b => a.1 < b.1) :
    (insertEntry name v es).Pairwise fun a b => a.1 < b.1 := by
  induction es with
  | nil => simp [insertEntry]
  | cons a es ih =>
    obtain ⟨ha, hes⟩ := List.pairwise_cons.1 h
    unfold insertEntry
    split
    · next hlt =>
      refine List.pairwise_cons.2 ⟨fun b hb => ?_, h⟩
      rcases List.mem_cons.1 hb with rfl | hb
      · exact hlt
      · exact String.lt_trans hlt (ha b hb)
    · next hlt =>
      split
      · next heq => exact List.pairwise_cons.2 ⟨fun b hb => heq ▸ ha b hb, hes⟩
      · next hne =>
        refine List.pairwise_cons.2 ⟨fun b hb => ?_, ih hes⟩
        rcases mem_insertEntry hb with rfl | hb
        · exact Std.lt_of_le_of_ne (String.not_lt.1 hlt) fun h => hne h.symm
        · exact ha b hb

/-- Stores a value under a name. -/
def insert (ps : Params) (name : String) (v : Param) : Params :=
  ⟨insertEntry name v ps.entries, ascending_insertEntry ps.ascending⟩

/-- The bag that the entries leave when they are stored one after the other. -/
def ofList (entries : List (String × Param)) : Params :=
  entries.foldl (fun ps e => ps.insert e.1 e.2) empty

/-! ### JSON -/

/-- The bag in JSON. -/
def toJson (ps : Params) : Json := .object (ps.entries.map fun e => (e.1, e.2.toJson))

/-- The bag that a JSON object stands for; of members with one name the last counts. -/
def ofJson? : Json → Option Params
  | .obj members => do
    let members ← Json.named? members
    let entries ← members.mapM fun m => (Param.ofJson? m.2).map (m.1, ·)
    return ofList entries
  | _ => none

end Params

end Wireboard
