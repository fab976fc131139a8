import Wireboard.Proofs.Diagram.Operations
import Wireboard.Proofs.Relabel.Basic

/-!
# Diagrams do not look into ids

Operations compare ids and do nothing else with them, so on relabelled diagrams and with relabelled
arguments they give the relabelled result, refusals included (`remove_relabel`, `toggle_relabel`,
and so on).  Only `add` and `rename` are exceptions: the one draws ids from a supply that is not relabelled, the
other trims the id that it is given.
-/

namespace Wireboard

namespace Diagram

variable {α : Type} (π : Equiv.Perm String) (d : Diagram α)

/-! ## queries -/

theorem ids_relabel : (d.relabel π).ids = d.ids.map π := by
  simp only [ids, Diagram.relabel, List.map_map]
  rfl

theorem isLive_relabel (id : String) : (d.relabel π).isLive (π id) = d.isLive id := by
  rw [Bool.eq_iff_iff, isLive_iff, isLive_iff, ids_relabel, List.mem_map_of_injective π.injective]

theorem node?_relabel (id : String) :
    (d.relabel π).node? (π id) = (d.node? id).map (·.relabel π) := by
  simp only [node?, Diagram.relabel, List.find?_map]
  congr 2
  funext n
  rw [Bool.eq_iff_iff, Function.comp_apply, beq_iff_eq, beq_iff_eq]
  exact π.injective.eq_iff

theorem link_relabel_injective : Function.Injective (Link.relabel π) := by
  rintro ⟨s, t⟩ ⟨s', t'⟩ h
  obtain ⟨hs, ht⟩ := Link.mk.inj h
  rw [Link.mk.injEq]
  exact ⟨π.injective hs, π.injective ht⟩

theorem hasLink_relabel (source target : String) :
    (d.relabel π).hasLink (π source) (π target) = d.hasLink source target := by
  rw [Bool.eq_iff_iff, hasLink_iff, hasLink_iff]
  exact List.mem_map_of_injective (link_relabel_injective π) (a := ⟨source, target⟩)

theorem touches_relabel (l : Link) (id : String) : (l.relabel π).touches (π id) = l.touches id := by
  rw [Bool.eq_iff_iff]
  simp [Link.touches, Link.relabel]

/-! ## results -/

theorem modify_relabel (id : String) {f : Node α → Node α}
    (hf : ∀ n, f (n.relabel π) = (f n).relabel π) :
    (d.relabel π).modify (π id) f = (d.modify id f).relabel π := by
  simp only [modify, Diagram.relabel, List.map_map, mk.injEq, and_true]
  refine List.map_congr_left fun n _ => ?_
  by_cases hn : n.id = id
  · have hn' : (n.relabel π).id = π id := congrArg π hn
    rw [Function.comp_apply, Function.comp_apply, if_pos hn, if_pos hn', hf]
  · have hn' : (n.relabel π).id ≠ π id := fun h => hn (π.injective h)
    rw [Function.comp_apply, Function.comp_apply, if_neg hn, if_neg hn']

theorem filter_ne_relabel (ns : List (Node α)) (id : String) :
    (ns.map (·.relabel π)).filter (·.id != π id) = (ns.filter (·.id != id)).map (·.relabel π) := by
  rw [List.filter_map]
  congr 1
  refine List.filter_congr fun n _ => ?_
  rw [Bool.eq_iff_iff, Function.comp_apply, bne_iff_ne, bne_iff_ne]
  exact π.injective.ne_iff

theorem without_relabel (id : String) :
    (d.relabel π).without (π id) = (d.without id).relabel π := by
  have hlinks : (d.links.map (·.relabel π)).filter (!·.touches (π id)) =
      (d.links.filter (!·.touches id)).map (·.relabel π) := by
    rw [List.filter_map]
    congr 1
    refine List.filter_congr fun l _ => ?_
    rw [Function.comp_apply, touches_relabel]
  simp only [without, Diagram.relabel, filter_ne_relabel, hlinks]

theorem flipped_relabel (source target : String) :
    (d.relabel π).flipped (π source) (π target) = (d.flipped source target).relabel π := by
  unfold flipped
  rw [hasLink_relabel]
  split
  · simp only [Diagram.relabel, mk.injEq, and_true, true_and]
    exact (List.map_erase (link_relabel_injective π) (a := ⟨source, target⟩) d.links).symm
  · simp only [Diagram.relabel, List.map_append]
    rfl

/-! ## operations -/

theorem remove_relabel (id : String) :
    (d.relabel π).remove (π id) =
      relabelResult π (fun r => (r.1.relabel π, r.2.relabel π)) (d.remove id) := by
  cases hn : d.node? id with
  | none =>
    have hn' : (d.relabel π).node? (π id) = none := by rw [node?_relabel, hn, Option.map_none]
    simp only [remove, hn, hn']
    rfl
  | some n =>
    have hn' : (d.relabel π).node? (π id) = some (n.relabel π) := by
      rw [node?_relabel, hn, Option.map_some]
    rw [remove_eq_ok_iff.2 ⟨hn, rfl⟩, remove_eq_ok_iff.2 ⟨hn', rfl⟩, without_relabel]
    rfl

theorem update_relabel (id name raw : String) :
    (d.relabel π).update (π id) name raw =
      relabelResult π (fun r => (r.1, r.2.relabel π)) (d.update id name raw) := by
  unfold update
  rw [node?_relabel]
  cases d.node? id with
  | none => rfl
  | some n =>
    have hmodify := modify_relabel π d id
      (f := fun m => { m with
        params := m.params.insert name (Param.coerce name raw (n.params.get? name)) })
      fun _ => rfl
    exact congrArg (fun d => Except.ok (_, d)) hmodify

theorem toggle_relabel (source target : String) :
    (d.relabel π).toggle (π source) (π target) =
      relabelResult π (fun r => (r.1, r.2.relabel π)) (d.toggle source target) := by
  by_cases hne : source = target
  · rw [toggle, toggle, if_pos hne, if_pos (congrArg π hne)]
    rfl
  have hne' : π source ≠ π target := fun h => hne (π.injective h)
  cases hs : d.isLive source with
  | false =>
    rw [toggle, toggle, if_neg hne, if_neg hne', isLive_relabel, hs]
    rfl
  | true =>
    cases ht : d.isLive target with
    | false =>
      rw [toggle, toggle, if_neg hne, if_neg hne', isLive_relabel, isLive_relabel, hs, ht]
      rfl
    | true =>
      have hs' : π source ∈ (d.relabel π).ids := isLive_iff.1 (by rw [isLive_relabel, hs])
      have ht' : π target ∈ (d.relabel π).ids := isLive_iff.1 (by rw [isLive_relabel, ht])
      rw [toggle_eq_ok_iff.2 ⟨hne, isLive_iff.1 hs, isLive_iff.1 ht, rfl, rfl⟩,
        toggle_eq_ok_iff.2 ⟨hne', hs', ht', rfl, rfl⟩, hasLink_relabel, flipped_relabel]
      rfl

variable [Scalar α]

theorem setPosition_relabel (id : String) (p : Point α) :
    (d.relabel π).setPosition (π id) p =
      relabelResult π (·.relabel π) (d.setPosition id p) := by
  have hmodify := modify_relabel π d id (f := ({ · with position := p })) fun _ => rfl
  unfold setPosition
  rw [isLive_relabel, hmodify]
  split_ifs <;> rfl

theorem setWidth_relabel (id : String) (w : α) :
    (d.relabel π).setWidth (π id) w = relabelResult π (·.relabel π) (d.setWidth id w) := by
  have hwidth : ∀ n : Node α,
      (if (n.relabel π).width == some w then n.relabel π
        else { n.relabel π with width := some w }) =
        (if n.width == some w then n else { n with width := some w }).relabel π := by
    intro n
    rw [apply_ite (Node.relabel π)]
    rfl
  unfold setWidth
  rw [isLive_relabel, modify_relabel π d id hwidth]
  split_ifs <;> rfl

end Diagram

end Wireboard
