import Mathlib.Data.List.Perm.Subperm
import Mathlib.Data.Nat.Find
import Mathlib.Data.Stream.Init
import Wireboard.Proofs.Diagram.Sound

/-!
# Drawing ids

A supply is a list, and the candidates for ids are endless.  So a diagram is fed the candidates one by
one, and the question is how many of them it takes until a node is added.

* `Draws d s l p i`: adding a node to `d` takes the candidates of `s` up to place `i`, no fewer, and
  leaves those after it.  The candidate there is the first that no node bears (`draws_iff`);
* `exists_draws`, `exists_draws_le`: there is such a place if some candidate is free, and candidates
  that are all different make the nodes' own number the last place that it can be;
* `Held`: what a history of edits says about a name.  `mem_ids_run`: the names that it calls held are
  those that count as in use.
-/

namespace Wireboard

/-! ## endless sequences -/

section streams

variable {β : Type} {s : Stream' β} {n : Nat} {x : β}

theorem mem_take_iff : x ∈ s.take n ↔ ∃ j < n, s.get j = x := by
  induction n with
  | zero => simp
  | succ n ih =>
    rw [Stream'.take_succ', List.mem_append, ih, List.mem_singleton]
    constructor
    · rintro (⟨j, hj, rfl⟩ | rfl)
      · exact ⟨j, Nat.lt_succ_of_lt hj, rfl⟩
      · exact ⟨n, Nat.lt_succ_self n, rfl⟩
    · rintro ⟨j, hj, rfl⟩
      rcases Nat.lt_succ_iff_lt_or_eq.1 hj with hj | rfl
      · exact .inl ⟨j, hj, rfl⟩
      · exact .inr rfl

theorem take_eq_append (s : Stream' β) (i k : Nat) :
    s.take (i + 1 + k) = s.take i ++ s.get i :: (s.drop (i + 1)).take k := by
  rw [Stream'.take_add, Stream'.take_succ', List.append_assoc, List.singleton_append]

theorem exists_first {used : List β} (h : s.get n ∉ used) :
    ∃ i ≤ n, s.get i ∉ used ∧ ∀ j < i, s.get j ∈ used := by
  classical
  have hfree : ∃ i, s.get i ∉ used := ⟨n, h⟩
  refine ⟨Nat.find hfree, Nat.find_min' hfree h, Nat.find_spec hfree, fun j hj => ?_⟩
  exact not_not.1 (Nat.find_min hfree hj)

/-- **Pigeonhole.**  Of more candidates than there are names, all different, one is not a name. -/
theorem exists_get_notMem {used : List β} (h : (s.take (used.length + 1)).Nodup) :
    ∃ i ≤ used.length, s.get i ∉ used := by
  by_contra hnone
  push Not at hnone
  have hsubset : s.take (used.length + 1) ⊆ used := by
    intro x hx
    obtain ⟨j, hj, rfl⟩ := mem_take_iff.1 hx
    exact hnone j (Nat.le_of_lt_succ hj)
  have hlength := (h.subperm hsubset).length_le
  rw [Stream'.length_take] at hlength
  omega

end streams

/-! ## adding a node -/

namespace Diagram

variable {α : Type}

/-- The diagram with the next `n` candidates of an endless sequence as its supply. -/
def fed (d : Diagram α) (s : Stream' String) (n : Nat) : Diagram α := { d with supply := s.take n }

variable [Scalar α]

/-- Adding a node takes the candidates up to place `i`, and the one there is the node's id.  With fewer
candidates it goes on asking, and further ones are left as they are. -/
structure Draws (d : Diagram α) (s : Stream' String) (l : Layer) (p : Point α) (i : Nat) : Prop where
  free : s.get i ∉ d.ids
  passed : ∀ j < i, s.get j ∈ d.ids
  asking : ∀ k ≤ i, (d.fed s k).add l p = .error .noFreshId
  added : ∀ k, (d.fed s (i + 1 + k)).add l p =
    .ok (⟨s.get i, l, l.defaults, p, none⟩,
      fed { d with nodes := d.nodes ++ [⟨s.get i, l, l.defaults, p, none⟩] } (s.drop (i + 1)) k)

section adding

variable {d : Diagram α} {s : Stream' String} {l : Layer} {p : Point α} {i : Nat}

theorem add_fed_of_mem (hp : p.isFinite = true) {k : Nat} (h : ∀ j < k, s.get j ∈ d.ids) :
    (d.fed s k).add l p = .error .noFreshId := by
  have hdraw : drawFresh (d.fed s k).ids (d.fed s k).supply = none := by
    refine drawFresh_eq_none_iff.2 fun c hc => ?_
    obtain ⟨j, hj, rfl⟩ := mem_take_iff.1 hc
    exact h j hj
  rw [add, if_pos hp, hdraw]

theorem draws_iff (hp : p.isFinite = true) :
    Draws d s l p i ↔ s.get i ∉ d.ids ∧ ∀ j < i, s.get j ∈ d.ids := by
  constructor
  · exact fun h => ⟨h.free, h.passed⟩
  · rintro ⟨hfree, hpassed⟩
    refine ⟨hfree, hpassed, fun k hk => ?_, fun k => ?_⟩
    · exact add_fed_of_mem hp fun j hj => hpassed j (Nat.lt_of_lt_of_le hj hk)
    -- the supply is cut at the candidate that is free
    · have hskipped : ∀ x ∈ s.take i, x ∈ d.ids := by
        intro x hx
        obtain ⟨j, hj, rfl⟩ := mem_take_iff.1 hx
        exact hpassed j hj
      have hdraw : drawFresh (d.fed s (i + 1 + k)).ids (d.fed s (i + 1 + k)).supply =
          some (s.get i, (s.drop (i + 1)).take k) := by
        change drawFresh d.ids (s.take (i + 1 + k)) = _
        rw [take_eq_append]
        exact drawFresh_append hskipped hfree
      rw [add, if_pos hp, hdraw]
      rfl

theorem exists_draws (hp : p.isFinite = true) (h : ∃ i, s.get i ∉ d.ids) :
    ∃ i, Draws d s l p i := by
  obtain ⟨n, hn⟩ := h
  obtain ⟨i, -, hfirst⟩ := exists_first hn
  exact ⟨i, (draws_iff hp).2 hfirst⟩

theorem exists_draws_le (hp : p.isFinite = true) (h : (s.take (d.nodes.length + 1)).Nodup) :
    ∃ i ≤ d.nodes.length, Draws d s l p i := by
  have hlength : d.ids.length = d.nodes.length := List.length_map _
  rw [← hlength] at h ⊢
  obtain ⟨n, hn, hfree⟩ := exists_get_notMem h
  obtain ⟨i, hi, hfirst⟩ := exists_first hfree
  exact ⟨i, hi.trans hn, (draws_iff hp).2 hfirst⟩

/-- A candidate that no node bears is drawn at once. -/
theorem draws_cons_zero (hp : p.isFinite = true) {c : String} (hc : c ∉ d.ids) :
    Draws d (.cons c s) l p 0 :=
  (draws_iff hp).2 ⟨hc, fun _ hj => absurd hj (Nat.not_lt_zero _)⟩

/-- A candidate that a node bears is passed over. -/
theorem Draws.cons (h : Draws d s l p i) (hp : p.isFinite = true) {c : String} (hc : c ∈ d.ids) :
    Draws d (.cons c s) l p (i + 1) := by
  refine (draws_iff hp).2 ⟨h.free, fun j hj => ?_⟩
  cases j with
  | zero => exact hc
  | succ j => exact h.passed j (Nat.lt_of_succ_lt_succ hj)

end adding

end Diagram

/-! ## names in a history -/

namespace Edit

variable {α : Type}

/-- With this answer, the edit has given the name to a node. -/
def gives : Edit α → Outcome α → String → Bool
  | .add .., .node n, c | .addNamed .., .node n, c => c == n.id
  | .rename .., .id name, c => c == name
  | _, _, _ => false

/-- The edit takes the name away from the node that bears it. -/
def frees : Edit α → String → Bool
  | .remove id, c | .rename id _, c => c == id
  | .clear, _ => true
  | _, _ => false

end Edit

/-- A name is held after a history: an edit gave it to a node, or a node bore it at the start, and no
later edit has freed it. -/
def Held {α : Type} (start : Prop) (history : List (Edit α × Outcome α)) (c : String) : Prop :=
  (start ∧ ∀ a ∈ history, a.1.frees c = false) ∨
    ∃ before a after, history = before ++ a :: after ∧ a.1.gives a.2 c = true ∧
      ∀ b ∈ after, b.1.frees c = false

section held

variable {α : Type} {start : Prop} {c : String}

theorem held_nil : Held start ([] : List (Edit α × Outcome α)) c ↔ start := by
  simp [Held]

theorem held_cons {a : Edit α × Outcome α} {history : List (Edit α × Outcome α)} :
    Held start (a :: history) c ↔
      Held (a.1.gives a.2 c = true ∨ start ∧ a.1.frees c = false) history c := by
  constructor
  · rintro (⟨hstart, hkept⟩ | ⟨before, b, after, hhistory, hgives, hkept⟩)
    · obtain ⟨ha, hkept⟩ := List.forall_mem_cons.1 hkept
      exact .inl ⟨.inr ⟨hstart, ha⟩, hkept⟩
    -- the name was given by the first edit, or by one of those after it
    · cases before with
      | nil =>
        obtain ⟨rfl, rfl⟩ := List.cons.inj hhistory
        exact .inl ⟨.inl hgives, hkept⟩
      | cons x before =>
        obtain ⟨rfl, rfl⟩ := List.cons.inj hhistory
        exact .inr ⟨before, b, after, rfl, hgives, hkept⟩
  · rintro (⟨hgives | ⟨hstart, ha⟩, hkept⟩ | ⟨before, b, after, rfl, hgives, hkept⟩)
    · exact .inr ⟨[], a, history, rfl, hgives, hkept⟩
    · exact .inl ⟨hstart, List.forall_mem_cons.2 ⟨ha, hkept⟩⟩
    · exact .inr ⟨a :: before, b, after, rfl, hgives, hkept⟩

end held

namespace Diagram

variable {α : Type} [Scalar α] {d d' : Diagram α} {c : String}

/-- The edits of a run that are carried out, with their answers. -/
def history (d : Diagram α) : List (Edit α) → List (Edit α × Outcome α)
  | [] => []
  | e :: es =>
    match d.perform e with
    | .ok (o, d') => (e, o) :: d'.history es
    | .error _ => d.history es

/-- The names in use after an edit: the one that it gives, and those before it that it does not
free. -/
theorem mem_ids_of_perform {e : Edit α} {o : Outcome α} (h : d.perform e = .ok (o, d')) :
    c ∈ d'.ids ↔ e.gives o c = true ∨ c ∈ d.ids ∧ e.frees c = false := by
  have hchange := (perform_effect h).change
  cases e with
  | add l p =>
    obtain ⟨⟨n, _⟩, hop, hres⟩ := map_eq_ok h
    cases hres
    obtain ⟨-, -, rest, -, rfl⟩ := add_eq_ok hop
    simp [ids_append, Edit.gives, Edit.frees, or_comm]
  | addNamed name p =>
    obtain ⟨⟨n, _⟩, hop, hres⟩ := map_eq_ok h
    cases hres
    obtain ⟨l, -, hadd⟩ := addNamed_eq_ok hop
    obtain ⟨-, -, rest, -, rfl⟩ := add_eq_ok hadd
    simp [ids_append, Edit.gives, Edit.frees, or_comm]
  | remove id =>
    obtain ⟨⟨n, _⟩, hop, hres⟩ := map_eq_ok h
    cases hres
    obtain ⟨-, rfl⟩ := remove_eq_ok_iff.1 hop
    simp [mem_ids_without, Edit.gives, Edit.frees]
  | rename id new =>
    obtain ⟨⟨name, _⟩, hop, hres⟩ := map_eq_ok h
    cases hres
    obtain ⟨-, -, hid, -, rfl⟩ := rename_eq_ok_iff.1 hop
    simp [mem_ids_renamed hid, Edit.gives, Edit.frees]
  | clear =>
    cases h
    simp [clear, ids, Edit.gives, Edit.frees]
  | _ => simp [hchange.ids_eq, Edit.gives, Edit.frees]

/-- **The names in use** after a run are those that its history calls held. -/
theorem mem_ids_run (d : Diagram α) (es : List (Edit α)) :
    c ∈ (d.run es).ids ↔ Held (c ∈ d.ids) (d.history es) c := by
  induction es generalizing d with
  | nil => exact held_nil.symm
  | cons e es ih =>
    change c ∈ ((d.step e).run es).ids ↔ _
    rw [history]
    cases h : d.perform e with
    | error x => rw [step_of_error h, ih]
    | ok r =>
      obtain ⟨o, d'⟩ := r
      rw [step_of_ok h, ih, held_cons]
      simp only [mem_ids_of_perform h]

/-! ## fresh ids -/

/-- **Fresh ids.**  After any history of edits, adding a node at a finite place ends when the endless
sequence of candidates holds one that no node bears, and only then.  The node is called by the first
such candidate, and what is left is the sequence after it.  If as many candidates as there are nodes,
and one more, are all different, then one of these is taken.

A name counts as in use from the edit that gives it to a node to the edit that frees it, and no two
nodes ever bear the same one.  So a name that a user chose is passed over, and the name that a renamed
or removed node had is drawn again. -/
theorem add_draws (d : Diagram α) (es : List (Edit α)) (s : Stream' String) (l : Layer) {p : Point α}
    (hp : p.isFinite = true) :
    let d' := d.run es
    ((∃ i, s.get i ∉ d'.ids) → ∃ i, Draws d' s l p i) ∧
    ((∀ i, s.get i ∈ d'.ids) → ∀ k, (d'.fed s k).add l p = .error .noFreshId) ∧
    ((s.take (d'.nodes.length + 1)).Nodup → ∃ i ≤ d'.nodes.length, Draws d' s l p i) ∧
    (∀ c, c ∈ d'.ids ↔ Held (c ∈ d.ids) (d.history es) c) ∧
    (d.Sound → d'.ids.Nodup) ∧
    (∀ id new name d₁, d'.rename id new = .ok (name, d₁) →
      (∀ i, Draws d₁ s l p i → Draws d₁ (.cons name s) l p (i + 1)) ∧
        (id ≠ name → Draws d₁ (.cons id s) l p 0)) ∧
    ∀ id n d₁, d'.remove id = .ok (n, d₁) → Draws d₁ (.cons id s) l p 0 := by
  intro d'
  refine ⟨exists_draws hp, fun h k => add_fed_of_mem hp fun j _ => h j, exists_draws_le hp,
    fun c => mem_ids_run d es, fun h => (h.run es).ids_nodup, fun id new name d₁ h => ?_,
    fun id n d₁ h => ?_⟩
  · obtain ⟨-, -, hid, -, rfl⟩ := rename_eq_ok_iff.1 h
    refine ⟨fun i hdraws => hdraws.cons hp ?_, fun hne => draws_cons_zero hp ?_⟩
    · exact (mem_ids_renamed hid).2 (.inl rfl)
    · rw [mem_ids_renamed hid]
      rintro (he | ⟨-, hself⟩)
      · exact hne he
      · exact hself rfl
  · obtain ⟨-, rfl⟩ := remove_eq_ok_iff.1 h
    exact draws_cons_zero hp fun hmem => (mem_ids_without.1 hmem).2 rfl

/-- Of three nodes one is renamed and one is removed.  The name that was typed and the name of the third
are passed over, and the first name of the renamed node is drawn again. -/
theorem add_draws_freed :
    let blank : Diagram Float32 := empty ["a", "b", "c"]
    let es : List (Edit Float32) := [.add .linear ⟨0.0, 0.0⟩, .add .linear ⟨0.0, 0.0⟩,
      .add .concat ⟨0.0, 0.0⟩, .rename "a" " x ", .remove "b"]
    let s : Stream' String := .cons "x" (.cons "c" (.cons "a" (.const "b")))
    (∀ c, Held (c ∈ blank.ids) (blank.history es) c ↔ c = "x" ∨ c = "c") ∧
      Draws (blank.run es) s .flatten ⟨1.0, 2.0⟩ 2 := by
  intro blank es s
  have hids : (blank.run es).ids = ["x", "c"] := by decide +kernel
  have hlength : (blank.run es).nodes.length = 2 := by decide +kernel
  have hp : (⟨1.0, 2.0⟩ : Point Float32).isFinite = true := by decide +kernel
  obtain ⟨-, -, hbound, hheld, -⟩ := add_draws blank es s .flatten hp
  rw [hlength] at hbound
  refine ⟨fun c => ?_, ?_⟩
  · rw [← hheld, hids]
    simp
  · obtain ⟨i, hi, hdraws⟩ := hbound (by decide)
    have hfree : s.get i ∉ ["x", "c"] := hids ▸ hdraws.free
    obtain rfl | rfl | rfl : i = 0 ∨ i = 1 ∨ i = 2 := by omega
    · exact absurd (by decide) hfree
    · exact absurd (by decide) hfree
    · exact hdraws

end Diagram

end Wireboard
