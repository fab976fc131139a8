import Wireboard.Proofs.Diagram.Operations
import Wireboard.Proofs.Number.Comparison

/-!
# Refusals

Which edits are refused, and why.

* `FirstFault`: of a list of faults with the refusals that they cause, the first that there is counts;
* `faults d e`: the faults that an edit can have, in the order in which they count;
* `perform_eq_error_iff`: an edit is refused exactly if it has a fault, and for the first;
* `isValidId_iff_rename`: what is called a valid id beforehand is what renaming accepts.
-/

namespace Wireboard

/-- The first fault that there is causes the refusal. -/
inductive FirstFault {ρ : Type} : List (Prop × ρ) → ρ → Prop
  | here {fault : Prop} {r : ρ} {rest : List (Prop × ρ)} (h : fault) :
    FirstFault ((fault, r) :: rest) r
  | later {fault : Prop} {r r' : ρ} {rest : List (Prop × ρ)} (h : ¬ fault)
    (hrest : FirstFault rest r) : FirstFault ((fault, r') :: rest) r

section faults

variable {ε β γ : Type} {fault : Prop} {r r' : ε} {rest : List (Prop × ε)} {x : Except ε β}

theorem firstFault_nil : ¬ FirstFault ([] : List (Prop × ε)) r := nofun

theorem FirstFault.exists_fault {l : List (Prop × ε)} (h : FirstFault l r) :
    ∃ fault, (fault, r) ∈ l ∧ fault := by
  induction h with
  | here h => exact ⟨_, List.mem_cons_self, h⟩
  | later _ _ ih =>
    obtain ⟨fault, hmem, hfault⟩ := ih
    exact ⟨fault, List.mem_cons_of_mem _ hmem, hfault⟩

theorem firstFault_of_fault (h : fault) : FirstFault ((fault, r') :: rest) r ↔ r' = r := by
  constructor
  · rintro (_ | ⟨hnot, -⟩)
    · rfl
    · exact absurd h hnot
  · rintro rfl
    exact .here h

theorem firstFault_of_not_fault (h : ¬ fault) :
    FirstFault ((fault, r') :: rest) r ↔ FirstFault rest r := by
  constructor
  · rintro (hfault | ⟨-, hrest⟩)
    · exact absurd hfault h
    · exact hrest
  · exact .later h

/-- A check, and what is done if it finds nothing. -/
theorem ite_eq_error_iff {c : Prop} [Decidable c] (hc : c ↔ fault)
    (hx : x = .error r ↔ FirstFault rest r) :
    (if c then .error r' else x) = .error r ↔ FirstFault ((fault, r') :: rest) r := by
  by_cases h : c
  · rw [if_pos h, firstFault_of_fault (hc.1 h), Except.error.injEq]
  · rw [if_neg h, firstFault_of_not_fault (mt hc.2 h), hx]

theorem ite_not_eq_error_iff {c : Prop} [Decidable c] (hc : ¬ c ↔ fault)
    (hx : x = .error r ↔ FirstFault rest r) :
    (if c then x else .error r') = .error r ↔ FirstFault ((fault, r') :: rest) r := by
  rw [← ite_not]
  exact ite_eq_error_iff hc hx

/-- Something is looked up, and used if it is found. -/
theorem lookup_eq_error_iff {o : Option γ} (ho : o = none ↔ fault) (hnone : o = none → x = .error r')
    (hsome : ∀ c, o = some c → (x = .error r ↔ FirstFault rest r)) :
    x = .error r ↔ FirstFault ((fault, r') :: rest) r := by
  cases hc : o with
  | none => rw [hnone hc, firstFault_of_fault (ho.1 hc), Except.error.injEq]
  | some c => rw [firstFault_of_not_fault (mt ho.2 (hc ▸ nofun)), hsome c hc]

theorem ok_eq_error_iff (b : β) : (Except.ok b : Except ε β) = .error r ↔ FirstFault [] r :=
  iff_of_false nofun firstFault_nil

theorem map_eq_error_iff (f : β → γ) : x.map f = .error r ↔ x = .error r := by
  cases x <;> simp [Except.map]

end faults

namespace Diagram

variable {d d' : Diagram Float32}

/-- A place for a new node: its coordinates are finite, and an id is left. -/
def placeFaults (d : Diagram Float32) (p : Point Float32) : List (Prop × Refusal Float32) :=
  [(p.x.isFinite = false ∨ p.y.isFinite = false, .badPosition p),
    (∀ id ∈ d.supply, id ∈ d.ids, .noFreshId)]

/-- The faults that an edit can have, in the order in which they are looked for. -/
def faults (d : Diagram Float32) : Edit Float32 → List (Prop × Refusal Float32)
  | .add _ p => d.placeFaults p
  | .addNamed name p =>
    (∀ l : Layer, trimmed name ≠ l.tag ∧ trimmed name ≠ l.short, .unknownLayer (trimmed name)) ::
      d.placeFaults p
  | .remove id | .update id _ _ | .setParam id _ _ => [(id ∉ d.ids, .unknownNode id)]
  | .rename id new =>
    [(trimmed new = "", .emptyId), (id ∉ d.ids, .unknownNode id),
      (trimmed new ∈ d.ids ∧ trimmed new ≠ id, .duplicateId (trimmed new))]
  | .setPosition id p =>
    [(p.x.isFinite = false ∨ p.y.isFinite = false, .badPosition p), (id ∉ d.ids, .unknownNode id)]
  | .setWidth id w =>
    [(w.isFinite = false ∨ w < 0.0, .badWidth w), (id ∉ d.ids, .unknownNode id)]
  | .toggle source target =>
    [(source = target, .selfLink source), (source ∉ d.ids, .unknownNode source),
      (target ∉ d.ids, .unknownNode target)]
  | .clear => []

theorem isFinite_eq_false_iff {p : Point Float32} :
    p.isFinite = false ↔ p.x.isFinite = false ∨ p.y.isFinite = false :=
  Bool.and_eq_false_iff

theorem isWidth_eq_false_iff {w : Float32} :
    isWidth w = false ↔ w.isFinite = false ∨ w < 0.0 := by
  unfold isWidth
  rw [Bool.and_eq_false_iff, decide_eq_false_iff_not]
  change w.isFinite = false ∨ _ ↔ _
  by_cases hw : w.isFinite = true
  · rw [← Single.not_lt_iff hw (by decide +kernel), not_not]
  · rw [Bool.not_eq_true] at hw
    exact iff_of_true (.inl hw) (.inl hw)

theorem not_isLive_iff {id : String} : (!d.isLive id) = true ↔ id ∉ d.ids := by
  rw [Bool.not_eq_true', isLive_eq_false_iff]

theorem ofName?_eq_none_iff {name : String} :
    Layer.ofName? name = none ↔ ∀ l : Layer, trimmed name ≠ l.tag ∧ trimmed name ≠ l.short := by
  rw [Option.eq_none_iff_forall_ne_some]
  simp only [ne_eq, Layer.ofName?_eq_some_iff, not_or]

/-! ## the edits, one by one -/

variable {r : Refusal Float32} {id : String}

theorem add_eq_error_iff {l : Layer} {p : Point Float32} :
    d.add l p = .error r ↔ FirstFault (d.placeFaults p) r := by
  refine ite_not_eq_error_iff ?_ (lookup_eq_error_iff drawFresh_eq_none_iff (fun h => ?_) fun c h => ?_)
  · rw [Bool.not_eq_true, isFinite_eq_false_iff]
  · rw [h]
  · rw [h]
    exact ok_eq_error_iff _

theorem addNamed_eq_error_iff {name : String} {p : Point Float32} :
    d.addNamed name p = .error r ↔ FirstFault (d.faults (.addNamed name p)) r := by
  unfold addNamed
  refine lookup_eq_error_iff ofName?_eq_none_iff (fun h => ?_) fun l h => ?_
  · rw [h]
  · rw [h]
    exact add_eq_error_iff

theorem node?_eq_none_iff_not_mem : d.node? id = none ↔ id ∉ d.ids :=
  node?_eq_none_iff.trans isLive_eq_false_iff

theorem remove_eq_error_iff : d.remove id = .error r ↔ FirstFault (d.faults (.remove id)) r := by
  unfold remove
  refine lookup_eq_error_iff node?_eq_none_iff_not_mem (fun h => ?_) fun n h => ?_
  · rw [h]
  · rw [h]
    exact ok_eq_error_iff _

theorem rename_eq_error_iff {new : String} :
    d.rename id new = .error r ↔ FirstFault (d.faults (.rename id new)) r := by
  rw [rename_eq]
  exact ite_eq_error_iff .rfl (ite_eq_error_iff .rfl (ite_eq_error_iff .rfl (ok_eq_error_iff _)))

theorem update_eq_error_iff {name raw : String} :
    d.update id name raw = .error r ↔ FirstFault (d.faults (.update id name raw)) r := by
  unfold update
  refine lookup_eq_error_iff node?_eq_none_iff_not_mem (fun h => ?_) fun n h => ?_
  · rw [h]
  · rw [h]
    exact ok_eq_error_iff _

theorem setParam_eq_error_iff {name : String} {v : Param} :
    d.setParam id name v = .error r ↔ FirstFault (d.faults (.setParam id name v)) r :=
  ite_not_eq_error_iff (not_congr isLive_iff) (ok_eq_error_iff _)

theorem setPosition_eq_error_iff {p : Point Float32} :
    d.setPosition id p = .error r ↔ FirstFault (d.faults (.setPosition id p)) r := by
  refine ite_eq_error_iff ?_ (ite_not_eq_error_iff (not_congr isLive_iff) (ok_eq_error_iff _))
  rw [Bool.not_eq_true', isFinite_eq_false_iff]

theorem setWidth_eq_error_iff {w : Float32} :
    d.setWidth id w = .error r ↔ FirstFault (d.faults (.setWidth id w)) r := by
  refine ite_eq_error_iff ?_ (ite_not_eq_error_iff (not_congr isLive_iff) (ok_eq_error_iff _))
  rw [Bool.not_eq_true', isWidth_eq_false_iff]

theorem toggle_eq_error_iff {source target : String} :
    d.toggle source target = .error r ↔ FirstFault (d.faults (.toggle source target)) r := by
  refine ite_eq_error_iff .rfl (ite_eq_error_iff not_isLive_iff (ite_eq_error_iff not_isLive_iff ?_))
  split
  · exact ok_eq_error_iff _
  · exact ok_eq_error_iff _

/-- **An edit is refused exactly if it has a fault, and for the first.** -/
theorem perform_eq_error_iff (e : Edit Float32) :
    d.perform e = .error r ↔ FirstFault (d.faults e) r := by
  cases e with
  | add l p => exact (map_eq_error_iff _).trans add_eq_error_iff
  | addNamed name p => exact (map_eq_error_iff _).trans addNamed_eq_error_iff
  | remove id => exact (map_eq_error_iff _).trans remove_eq_error_iff
  | rename id new => exact (map_eq_error_iff _).trans rename_eq_error_iff
  | update id name raw => exact (map_eq_error_iff _).trans update_eq_error_iff
  | setParam id name v => exact (map_eq_error_iff _).trans setParam_eq_error_iff
  | setPosition id p => exact (map_eq_error_iff _).trans setPosition_eq_error_iff
  | setWidth id w => exact (map_eq_error_iff _).trans setWidth_eq_error_iff
  | toggle source target => exact (map_eq_error_iff _).trans toggle_eq_error_iff
  | clear => exact ok_eq_error_iff _

/-! ## ids that may be given -/

/-- A node may be called what its rename to accepts. -/
theorem isValidId_iff_rename {old new : String} (hold : old ∈ d.ids) :
    d.isValidId new old = true ↔ ∃ o, d.rename old new = .ok o := by
  rw [isValidId, isValidId_iff]
  constructor
  · rintro ⟨hempty, hfree⟩
    exact ⟨_, rename_eq_ok_iff.2 ⟨rfl, hempty, hold, hfree, rfl⟩⟩
  · rintro ⟨⟨name, d'⟩, h⟩
    obtain ⟨rfl, hempty, -, hfree, -⟩ := rename_eq_ok_iff.1 h
    exact ⟨hempty, hfree⟩

/-- The old id is in use no longer, unless it is the new one. -/
theorem mem_ids_of_rename {old new name : String} (h : d.rename old new = .ok (name, d')) :
    name = trimmed new ∧ name ∈ d'.ids ∧ (old ∈ d'.ids ↔ name = old) := by
  obtain ⟨rfl, -, hold, -, rfl⟩ := rename_eq_ok_iff.1 h
  refine ⟨rfl, (mem_ids_renamed hold).2 (.inl rfl), ?_⟩
  rw [mem_ids_renamed hold]
  constructor
  · rintro (hnew | ⟨-, hne⟩)
    · exact hnew.symm
    · exact absurd rfl hne
  · exact fun he => .inl he.symm

/-- **Refusals and their causes.**  An edit is refused exactly if it has a fault, and for the first that it
has; there is an id for a new node as long as the supply holds one that is not in use.  A live node can be
renamed exactly to what is valid for it, and is then not called what it was called before. -/
theorem refusal_causes (d : Diagram Float32) :
    (∀ e r, d.perform e = .error r ↔ FirstFault (d.faults e) r) ∧
      ((∃ id ∈ d.supply, id ∉ d.ids) → ∀ e, d.perform e ≠ .error .noFreshId) ∧
      ∀ old ∈ d.ids, ∀ new,
        (d.isValidId new old = true ↔ ∃ o, d.rename old new = .ok o) ∧
        ∀ name d', d.rename old new = .ok (name, d') →
          name = trimmed new ∧ name ∈ d'.ids ∧ (old ∈ d'.ids ↔ name = old) := by
  refine ⟨fun e r => perform_eq_error_iff e, ?_, fun old hold new =>
    ⟨isValidId_iff_rename hold, fun name d' h => mem_ids_of_rename h⟩⟩
  rintro ⟨id, hid, hunused⟩ e h
  obtain ⟨fault, hmem, hfault⟩ := ((perform_eq_error_iff e).1 h).exists_fault
  have hplace : ∀ p, (fault, Refusal.noFreshId) ∉ d.placeFaults p := by
    intro p hmem
    obtain rfl : fault = ∀ id ∈ d.supply, id ∈ d.ids := by simpa [placeFaults] using hmem
    exact hunused (hfault id hid)
  cases e with
  | add l p => exact hplace p hmem
  | addNamed name p => exact hplace p ((List.mem_cons.1 hmem).resolve_left nofun)
  | _ => simp [faults] at hmem

/-- An id with blanks around it, first one that is in use and then one that is not. -/
theorem refusal_causes_blank :
    let d : Diagram Float32 :=
      (Diagram.empty ["a", "b", "c"]).run [.add .linear ⟨0.0, 0.0⟩, .add .linear ⟨400.0, 0.0⟩]
    d.perform (.rename "a" " b\t") = .error (.duplicateId "b") ∧
      (∀ e, d.perform e ≠ .error .noFreshId) ∧
      ∃ d', d.rename "a" " z\t" = .ok ("z", d') ∧ "z" ∈ d'.ids ∧ "a" ∉ d'.ids := by
  intro d
  have hids : d.ids = ["a", "b"] := by decide +kernel
  have hsupply : d.supply = ["c"] := by decide +kernel
  obtain ⟨hcauses, hfresh, hrename⟩ := refusal_causes d
  refine ⟨?_, hfresh ⟨"c", ?_⟩, ?_⟩
  · have htrim : trimmed " b\t" = "b" := by decide +kernel
    have hfault : FirstFault (d.faults (.rename "a" " b\t")) (.duplicateId (trimmed " b\t")) :=
      .later (by decide +kernel) (.later (by simp [hids]) (.here (by simp [hids, htrim])))
    rw [htrim] at hfault
    exact (hcauses _ _).2 hfault
  · simp [hids, hsupply]
  · obtain ⟨hvalid, hafter⟩ := hrename "a" (by simp [hids]) " z\t"
    have htrim : trimmed " z\t" = "z" := by decide +kernel
    obtain ⟨⟨name, d'⟩, h⟩ := hvalid.1 (by rw [isValidId, hids]; decide +kernel)
    obtain ⟨hname, hmem, hold⟩ := hafter name d' h
    obtain rfl : name = "z" := hname.trans htrim
    exact ⟨d', h, hmem, fun hmem => absurd (hold.1 hmem) (by decide)⟩

end Diagram

end Wireboard
