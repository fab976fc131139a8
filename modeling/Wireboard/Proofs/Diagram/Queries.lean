import Mathlib.Data.List.Nodup
import Wireboard.Diagram.Edit

/-!
# Looking nodes up

What `ids`, `isLive`, `node?` and `hasLink` say of one another, and how a change of one node looks
through them.

* `node?_of_mem`: when no two nodes share an id, every node is the one that its id names;
* `ids_modify`, `ids_modify_id`: a change that keeps the id keeps the list of ids, and a new id
  takes the place of the old one; `nodes_modify_of_nodup`: one node is changed and no other.
-/

namespace Wireboard

namespace Diagram

variable {α : Type} {d : Diagram α} {id : String}

/-! ## queries -/

theorem mem_ids : id ∈ d.ids ↔ ∃ n ∈ d.nodes, n.id = id := by
  simp [ids]

theorem isLive_iff : d.isLive id = true ↔ id ∈ d.ids := by
  simp [isLive, mem_ids]

theorem isLive_eq_false_iff : d.isLive id = false ↔ id ∉ d.ids := by
  rw [← isLive_iff, Bool.not_eq_true]

theorem node?_eq_some {n : Node α} (h : d.node? id = some n) : n ∈ d.nodes ∧ n.id = id := by
  have hid := List.find?_some h
  exact ⟨List.mem_of_find?_eq_some h, by simpa using hid⟩

theorem isSome_node? : (d.node? id).isSome = d.isLive id := by
  rw [Bool.eq_iff_iff, node?, List.find?_isSome, isLive, List.any_eq_true]

theorem node?_eq_none_iff : d.node? id = none ↔ d.isLive id = false := by
  rw [← isSome_node?, Option.isSome_eq_false_iff, Option.isNone_iff_eq_none]

theorem exists_node? (h : d.isLive id = true) : ∃ n, d.node? id = some n := by
  rw [← isSome_node?] at h
  exact Option.isSome_iff_exists.1 h

theorem isLive_of_node? {n : Node α} (h : d.node? id = some n) : d.isLive id = true := by
  rw [← isSome_node?, h, Option.isSome_some]

theorem node?_of_mem (hd : d.ids.Nodup) {n : Node α} (hn : n ∈ d.nodes) :
    d.node? n.id = some n := by
  obtain ⟨m, hm⟩ := exists_node? (isLive_iff.2 (mem_ids.2 ⟨n, hn, rfl⟩))
  obtain ⟨hmem, hid⟩ := node?_eq_some hm
  rw [hm, List.inj_on_of_nodup_map hd hmem hn hid]

theorem hasLink_iff {source target : String} :
    d.hasLink source target = true ↔ ⟨source, target⟩ ∈ d.links := by
  simp [hasLink]

/-! ## a change of one node -/

theorem ids_modify {f : Node α → Node α} (hf : ∀ n, (f n).id = n.id) :
    (d.modify id f).ids = d.ids := by
  simp only [ids, modify, List.map_map]
  refine List.map_congr_left fun n _ => ?_
  by_cases h : n.id = id <;> simp [h, hf]

theorem ids_modify_id (name : String) :
    (d.modify id ({ · with id := name })).ids = d.ids.map fun x => if x = id then name else x := by
  simp only [ids, modify, List.map_map]
  refine List.map_congr_left fun n _ => ?_
  by_cases h : n.id = id <;> simp [h]

theorem modify_congr {f g : Node α → Node α} (h : ∀ n ∈ d.nodes, n.id = id → f n = g n) :
    d.modify id f = d.modify id g := by
  have hnodes : (d.nodes.map fun n => if n.id = id then f n else n) =
      d.nodes.map fun n => if n.id = id then g n else n := by
    refine List.map_congr_left fun n hn => ?_
    by_cases hid : n.id = id
    · rw [if_pos hid, if_pos hid, h n hn hid]
    · rw [if_neg hid, if_neg hid]
  rw [modify, hnodes, modify]

theorem modify_eq_self {f : Node α → Node α} (hf : ∀ n ∈ d.nodes, n.id = id → f n = n) :
    d.modify id f = d := by
  rw [modify_congr (g := fun n => n) hf]
  simp [modify]

/-- When no two nodes share an id, only one node changes. -/
theorem nodes_modify_of_nodup (hd : d.ids.Nodup) (hid : id ∈ d.ids) :
    ∃ before n after, d.nodes = before ++ n :: after ∧ n.id = id ∧
      ∀ f, (d.modify id f).nodes = before ++ f n :: after := by
  obtain ⟨n, hn, rfl⟩ := mem_ids.1 hid
  obtain ⟨before, after, hnodes⟩ := List.append_of_mem hn
  have hids : ((before ++ n :: after).map (·.id)).Nodup := hnodes ▸ hd
  rw [List.map_append, List.map_cons, List.nodup_middle, List.nodup_cons, List.mem_append] at hids
  have hsame : ∀ (f : Node α → Node α) {ns : List (Node α)}, n.id ∉ ns.map (·.id) →
      (ns.map fun m => if m.id = n.id then f m else m) = ns := by
    intro f ns hns
    conv_rhs => rw [← List.map_id ns]
    refine List.map_congr_left fun m hm => if_neg fun heq => hns ?_
    exact List.mem_map.2 ⟨m, hm, heq⟩
  refine ⟨before, n, after, hnodes, rfl, fun f => ?_⟩
  rw [modify, hnodes, List.map_append, List.map_cons, if_pos rfl,
    hsame f fun h => hids.1 (.inl h), hsame f fun h => hids.1 (.inr h)]

end Diagram

end Wireboard
