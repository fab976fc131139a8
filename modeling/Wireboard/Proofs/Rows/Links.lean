import Wireboard.Proofs.Rows.Sync

/-!
# Rows of links and of the selection

These lists are made anew whenever they are not right, so all that matters is how that is found out and
how the old rows are taken away.  Rows of links are counted and then compared with the links, each with
the one at its place; the row of the selection is looked at only if there is no other, and surplus rows
are taken away one after the other.

* `LinkRows.agree_iff`: rows that pass the comparison stand for the links, in their order.
* `LinkRows.mirror_eq`, `Selection.mirror?_eq`: what is done is what `LinkRows.sync` and
  `Selection.sync` say, and the loop comes to its end.
* `Session.mirrors_exact`: which rows there are afterwards, whatever rows there were before, and that
  rows which are right are not touched.
-/

namespace Wireboard

/-! ## links -/

namespace LinkRows

variable {α ρ : Type}

section Mirror

variable (R : LinkRows ρ)

/-- The row bears both ends of the link. -/
def standsFor (r : ρ) (l : Link) : Bool := R.source r == l.source && R.target r == l.target

/-- There are as many rows as links, and each row stands for the link at its place. -/
def agree (rows : List ρ) (links : List Link) : Bool :=
  rows.length == links.length && (rows.zip links).all fun p => R.standsFor p.1 p.2

/-- Makes the rows anew unless they agree with the links. -/
def mirror (d : Diagram α) (rows : List ρ) : RowChange ρ :=
  if R.agree rows d.links then .keep else .replace (d.links.map R.ofLink)

end Mirror

variable {R : LinkRows ρ} {d : Diagram α} {rows : List ρ}

theorem standsFor_iff {r : ρ} {l : Link} : R.standsFor r l = true ↔ R.link r = l := by
  cases l
  simp [standsFor, link]

theorem agree_cons (r : ρ) (rows : List ρ) (l : Link) (links : List Link) :
    R.agree (r :: rows) (l :: links) = (R.standsFor r l && R.agree rows links) := by
  simp [agree, Bool.and_left_comm]

/-- Rows agree with the links only if they stand for them one by one: a part of them, more than them,
another order or a link the other way round is found out. -/
theorem agree_iff : ∀ {links : List Link}, R.agree rows links = true ↔ rows.map R.link = links := by
  induction rows with
  | nil =>
    intro links
    cases links <;> simp [agree]
  | cons r rows ih =>
    intro links
    cases links with
    | nil => simp [agree]
    | cons l links =>
      rw [agree_cons, Bool.and_eq_true, standsFor_iff, ih, List.map_cons, List.cons.injEq]

theorem mirror_eq : R.mirror d rows = R.sync d rows := by
  simp only [mirror, sync, agree_iff]

theorem sync_eq_keep_iff : R.sync d rows = .keep ↔ rows.map R.link = d.links := by
  unfold sync
  split
  · next h => exact ⟨fun _ => h, fun _ => rfl⟩
  · next h => exact ⟨fun hkeep => (nomatch hkeep), fun hrows => absurd hrows h⟩

/-- After a sync the rows stand for the links. -/
theorem links_sync (hR : ∀ l, R.link (R.ofLink l) = l) (d : Diagram α) (rows : List ρ) :
    ((R.sync d rows).apply rows).map R.link = d.links := by
  unfold sync
  split
  · next h => exact h
  · rw [RowChange.apply, List.map_map]
    exact List.map_id'' hR _

end LinkRows

/-! ## the selection -/

namespace Selection

/-- There is just the row of the selected node, or none if no node is selected. -/
def agrees (s : Selection) (rows : List String) : Bool :=
  match s.id with
  | some id => rows.length == 1 && rows[0]? == some id
  | .none => rows.length == 0

/-- Takes the first row away for as long as there is one, if the fuel lasts. -/
def clear? : Nat → RowLoop String → Option (RowLoop String)
  | 0, _ => .none
  | fuel + 1, c => if 0 < c.rows.length then clear? fuel (c.emit (.remove 0)) else some c

/-- Takes all rows away and appends the one of the selected node, unless the rows agree. -/
def mirror? (s : Selection) (fuel : Nat) (rows : List String) : Option (RowLoop String) :=
  if s.agrees rows then some (.start rows)
  else (clear? fuel (.start rows)).map fun c => s.rows.foldl (fun c id => c.emit (.push id)) c

/-- What is done to the rows. -/
def edits (s : Selection) (rows : List String) : List (RowEdit String) :=
  if rows = s.rows then []
  else List.replicate rows.length (.remove 0) ++ s.rows.map .push

variable {s : Selection} {rows : List String}

theorem agrees_iff : s.agrees rows = true ↔ rows = s.rows := by
  rcases s with ⟨_ | id⟩
  · simp [agrees, Selection.rows]
  · rcases rows with _ | ⟨row, _ | ⟨_, _⟩⟩ <;> simp [agrees, Selection.rows]

/-- The loop ends, with a turn for each row. -/
theorem clear?_eq (next : Nat) : ∀ (rows : List String) (log : List (RowEdit String)) {fuel : Nat},
    rows.length < fuel →
      clear? fuel ⟨next, rows, log⟩ =
        some ⟨next, [], log ++ List.replicate rows.length (.remove 0)⟩ := by
  intro rows
  induction rows with
  | nil =>
    intro log fuel hfuel
    obtain ⟨fuel, rfl⟩ := Nat.exists_eq_succ_of_ne_zero (Nat.ne_of_gt hfuel)
    simp [clear?]
  | cons row rows ih =>
    intro log fuel hfuel
    obtain ⟨fuel, rfl⟩ := Nat.exists_eq_succ_of_ne_zero (Nat.ne_of_gt (Nat.zero_lt_of_lt hfuel))
    have hrest := ih (log ++ [.remove 0]) (Nat.lt_of_succ_lt_succ hfuel)
    rw [List.append_assoc, List.singleton_append, ← List.replicate_succ] at hrest
    exact (if_pos (Nat.zero_lt_succ rows.length)).trans hrest

theorem mirror?_eq {fuel : Nat} (h : rows.length < fuel) :
    s.mirror? fuel rows = some ⟨0, s.rows, s.edits rows⟩ := by
  unfold mirror? edits
  simp only [agrees_iff]
  split
  · next hrows => rw [RowLoop.start, hrows]
  · rw [RowLoop.start, clear?_eq 0 rows [] h, List.nil_append, Option.map_some]
    rcases s with ⟨_ | id⟩ <;> simp [Selection.rows, RowLoop.emit, RowEdit.apply]

theorem apply_sync (s : Selection) (rows : List String) : (s.sync rows).apply rows = s.rows := by
  unfold sync
  split
  · next h => exact h
  · rfl

theorem edits_eq_nil_iff : s.edits rows = [] ↔ rows = s.rows := by
  unfold edits
  split
  · next h => exact ⟨fun _ => h, fun _ => rfl⟩
  · next h =>
    refine ⟨fun hnil => ?_, fun hrows => absurd hrows h⟩
    rw [List.append_eq_nil_iff, List.replicate_eq_nil_iff, List.map_eq_nil_iff] at hnil
    rw [List.eq_nil_of_length_eq_zero hnil.1, hnil.2]

end Selection

/-! ## both -/

namespace Session

variable {α ρ : Type} {R : LinkRows ρ}

/-- **Links and the selection are shown as they are.**  Whatever rows there are, a sync leaves rows that
stand for the links of the diagram, each once and in their order, and the row of the selected node alone,
or none.  Rows are touched only if they are not that already, and so a second sync never does
anything. -/
theorem mirrors_exact (hR : ∀ l, R.link (R.ofLink l) = l) (s : Session α) (rows : List ρ)
    (ids : List String) :
    (R.mirror s.diagram = R.sync s.diagram ∧
      ((R.mirror s.diagram rows).apply rows).map R.link = s.diagram.links ∧
      (R.mirror s.diagram rows = .keep ↔ rows.map R.link = s.diagram.links) ∧
      R.mirror s.diagram ((R.mirror s.diagram rows).apply rows) = .keep) ∧
    ∃ c, (∀ fuel, ids.length < fuel → s.selection.mirror? fuel ids = some c) ∧
      c.rows = (s.selection.sync ids).apply ids ∧ c.rows = s.selection.id.toList ∧
      (c.log = [] ↔ ids = s.selection.id.toList) ∧
      ∀ fuel, c.rows.length < fuel → s.selection.mirror? fuel c.rows = some (.start c.rows) := by
  have hmirror : R.mirror s.diagram = R.sync s.diagram := funext fun rows => LinkRows.mirror_eq
  have hlinks := LinkRows.links_sync hR s.diagram rows
  refine ⟨⟨hmirror, ?_⟩, ⟨0, s.selection.rows, s.selection.edits ids⟩,
    fun fuel hfuel => Selection.mirror?_eq hfuel, (Selection.apply_sync _ _).symm, rfl,
    Selection.edits_eq_nil_iff, fun fuel hfuel => ?_⟩
  · rw [hmirror]
    exact ⟨hlinks, LinkRows.sync_eq_keep_iff, LinkRows.sync_eq_keep_iff.2 hlinks⟩
  · rw [Selection.mirror?_eq hfuel, Selection.edits_eq_nil_iff.2 rfl, RowLoop.start]

/-- As many rows as links, but one with its ends the other way round; and the right row of the
selection twice. -/
theorem mirrors_exact_swapped :
    let R : LinkRows (Link × Nat) := ⟨(·.1.source), (·.1.target), (·, 0)⟩
    ∃ s : Session Float32, Reached ["a", "b", "c"] s ∧
      s.diagram.links = [⟨"a", "b"⟩, ⟨"b", "c"⟩] ∧ s.selection = .only "b" ∧
      R.mirror s.diagram [(⟨"a", "b"⟩, 7), (⟨"c", "b"⟩, 8)] =
        .replace [(⟨"a", "b"⟩, 0), (⟨"b", "c"⟩, 0)] ∧
      R.mirror s.diagram [(⟨"a", "b"⟩, 7), (⟨"b", "c"⟩, 8)] = .keep ∧
      ∃ c, s.selection.mirror? 3 ["b", "b"] = some c ∧ c.rows = ["b"] ∧
        c.log = [.remove 0, .remove 0, .push "b"] := by
  intro R
  let es : List (Edit Float32) := [.add .linear ⟨0.0, 0.0⟩, .add .linear ⟨400.0, 0.0⟩,
    .add .linear ⟨0.0, 300.0⟩, .toggle "a" "b", .toggle "b" "c"]
  obtain ⟨s, hopen⟩ := exists_open? .initial ((Diagram.empty ["a", "b", "c"]).run es)
  have hstate : (open? .initial ((Diagram.empty ["a", "b", "c"]).run es)).map (fun s =>
      ((s.run [.select "b"]).diagram.links, (s.run [.select "b"]).selection)) =
      some ([⟨"a", "b"⟩, ⟨"b", "c"⟩], .only "b") := by
    decide +kernel
  rw [hopen, Option.map_some, Option.some.injEq, Prod.mk.injEq] at hstate
  obtain ⟨hlinks, hselected⟩ := hstate
  have hR : ∀ l, R.link (R.ofLink l) = l := fun l => rfl
  obtain ⟨⟨hmirror, -, hkept, -⟩, c, hc, -, hrows, -⟩ := mirrors_exact hR (s.run [.select "b"])
    [(⟨"a", "b"⟩, 7), (⟨"b", "c"⟩, 8)] ["b", "b"]
  have hloop := hc 3 (by decide)
  have hlog : ((s.run [.select "b"]).selection.mirror? 3 ["b", "b"]).map RowLoop.log =
      some [.remove 0, .remove 0, .push "b"] := by
    rw [hselected]
    decide
  rw [hloop, Option.map_some, Option.some.injEq] at hlog
  refine ⟨s.run [.select "b"], ⟨.initial, es, s, _, hopen, rfl⟩, hlinks, hselected, ?_, ?_, c, hloop,
    ?_, hlog⟩
  · rw [hmirror, LinkRows.sync, hlinks, if_neg (by decide)]
    rfl
  · rw [hkept, hlinks]
    rfl
  · rw [hrows, hselected]
    rfl

end Session

end Wireboard
