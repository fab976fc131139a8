import Wireboard.Proofs.Number.Nearest
import Wireboard.Proofs.Rows.Order

/-!
# Bringing rows up to date in place

`NodeRows.sync` says which rows there are afterwards.  A list that others watch is changed one row at a
time, so that they can follow: a loop goes through it with an index, drops rows under the index and
writes others, and what is missing is appended at the end.

* `NodeRows.turn?`, `NodeRows.loop?`, `NodeRows.mirror?`: one turn of the loop, the loop for as long as
  its fuel lasts, and the whole; each change is logged.
* `NodeRows.loop?_eq`: the loop takes as many turns as there are rows, and leaves what `sync` says
  (`NodeRows.Lawful.mirror?_eq`).
* `NodeRows.sync_mirrors`: what the rows and the log are, whatever rows there were before, and that
  doing it again changes nothing.
-/

set_option linter.unusedSectionVars false

namespace Wireboard

/-- A change of one row of a list. -/
inductive RowEdit (ρ : Type) where
  | write (i : Nat) (r : ρ)
  | remove (i : Nat)
  | push (r : ρ)
  deriving DecidableEq

namespace RowEdit

variable {ρ : Type}

/-- The list after the change. -/
def apply : RowEdit ρ → List ρ → List ρ
  | write i r, rows => rows.set i r
  | remove i, rows => rows.eraseIdx i
  | push r, rows => rows ++ [r]

/-- The row that is written in the place of another. -/
def written? : RowEdit ρ → Option ρ
  | write _ r => some r
  | _ => none

/-- The row that is appended. -/
def pushed? : RowEdit ρ → Option ρ
  | push r => some r
  | _ => none

/-- The change takes a row away. -/
def removes : RowEdit ρ → Bool
  | remove _ => true
  | _ => false

end RowEdit

/-- The rows while they are brought up to date: the index of the next one to be looked at, all of them,
and what was done to them. -/
structure RowLoop (ρ : Type) where
  next : Nat
  rows : List ρ
  log : List (RowEdit ρ)
  deriving DecidableEq

namespace RowLoop

variable {ρ : Type}

/-- Nothing is done yet. -/
def start (rows : List ρ) : RowLoop ρ := ⟨0, rows, []⟩

/-- Changes a row. -/
def emit (c : RowLoop ρ) (e : RowEdit ρ) : RowLoop ρ :=
  { c with rows := e.apply c.rows, log := c.log ++ [e] }

/-- Goes on to the next row. -/
def advance (c : RowLoop ρ) : RowLoop ρ := { c with next := c.next + 1 }

end RowLoop

namespace NodeRows

variable {α ρ : Type} [Scalar α]

/-! ## the loop -/

section Loop

variable (R : NodeRows α ρ) (d : Diagram α)

/-- The row moved to the node's position. -/
def moved (n : Node α) (r : ρ) : ρ := R.setY n.position.y (R.setX n.position.x r)

/-- One turn of the loop, unless all rows were looked at.  After a row was dropped, the next one is
under the same index. -/
def turn? (c : RowLoop ρ) : Option (RowLoop ρ) :=
  match c.rows[c.next]? with
  | none => none
  | some r =>
    match d.node? (R.id r) with
    | some n =>
      if R.x r != n.position.x || R.y r != n.position.y then
        some (c.emit (.write c.next (R.moved n r))).advance
      else some c.advance
    | none => some (c.emit (.remove c.next))

/-- The loop, if it comes to its end with this much fuel: one for each turn and one to see the end. -/
def loop? : Nat → RowLoop ρ → Option (RowLoop ρ)
  | 0, _ => none
  | fuel + 1, c =>
    match R.turn? d c with
    | none => some c
    | some c => loop? fuel c

/-- Appends a row for the node unless there is one by now. -/
def offer (c : RowLoop ρ) (n : Node α) : RowLoop ρ :=
  if c.rows.any (R.id · == n.id) then c else c.emit (.push (R.ofNode n))

/-- The loop, and then the nodes one after the other. -/
def mirror? (fuel : Nat) (rows : List ρ) : Option (RowLoop ρ) :=
  (R.loop? d fuel (.start rows)).map fun c => d.nodes.foldl R.offer c

/-- The row is numerically at the node's position. -/
def isAt (n : Node α) (r : ρ) : Bool := R.x r == n.position.x && R.y r == n.position.y

/-- The changes that the loop makes to these rows, when it has passed `i` others. -/
def edits (i : Nat) : List ρ → List (RowEdit ρ)
  | [] => []
  | r :: rows =>
    match d.node? (R.id r) with
    | some n =>
      if R.isAt n r then edits (i + 1) rows else .write i (R.moved n r) :: edits (i + 1) rows
    | none => .remove i :: edits i rows

/-- Rows for the nodes that have none, in the order of the nodes. -/
def missing (rows : List ρ) : List ρ := (d.nodes.filter (·.id ∉ rows.map R.id)).map R.ofNode

end Loop

variable {R : NodeRows α ρ} {d : Diagram α} {rows : List ρ}

theorem not_isAt (n : Node α) (r : ρ) :
    (R.x r != n.position.x || R.y r != n.position.y) = !R.isAt n r := by
  rw [isAt, Bool.not_and]
  rfl

theorem place_eq (n : Node α) (r : ρ) :
    R.place n r = if R.isAt n r then r else R.moved n r := by
  rw [place, not_isAt]
  cases R.isAt n r <;> rfl

theorem turn?_end {c : RowLoop ρ} (h : c.rows.length ≤ c.next) : R.turn? d c = none := by
  rw [turn?, List.getElem?_eq_none h]

/-- A row of a node that is gone is dropped, and the index stays. -/
theorem turn?_stale {r : ρ} (h : d.node? (R.id r) = none) (done rest : List ρ)
    (log : List (RowEdit ρ)) :
    R.turn? d ⟨done.length, done ++ r :: rest, log⟩ =
      some ⟨done.length, done ++ rest, log ++ [.remove done.length]⟩ := by
  have hrow : (done ++ r :: rest)[done.length]? = some r := by simp
  have herase : (done ++ r :: rest).eraseIdx done.length = done ++ rest := by
    rw [List.eraseIdx_append_of_length_le (Nat.le_refl _), Nat.sub_self, List.eraseIdx_cons_zero]
  simp only [turn?, hrow, h, RowLoop.emit, RowEdit.apply, herase]

/-- A row of a node that is there is put in its place, if it is not there already, and passed. -/
theorem turn?_live {r : ρ} {n : Node α} (h : d.node? (R.id r) = some n) (done rest : List ρ)
    (log : List (RowEdit ρ)) :
    R.turn? d ⟨done.length, done ++ r :: rest, log⟩ =
      some ⟨done.length + 1, done ++ R.place n r :: rest,
        log ++ if R.isAt n r then [] else [.write done.length (R.moved n r)]⟩ := by
  have hrow : (done ++ r :: rest)[done.length]? = some r := by simp
  have hset : (done ++ r :: rest).set done.length (R.moved n r) = done ++ R.moved n r :: rest := by
    rw [List.set_append_right _ _ (Nat.le_refl _), Nat.sub_self, List.set_cons_zero]
  simp only [turn?, hrow, h, not_isAt, place_eq]
  cases R.isAt n r
  · simp only [RowLoop.emit, RowLoop.advance, RowEdit.apply, hset]
    rfl
  · simp [RowLoop.advance]

/-- The loop ends, with a turn for each row. -/
theorem loop?_eq (rest : List ρ) : ∀ (done : List ρ) (log : List (RowEdit ρ)) {fuel : Nat},
    rest.length < fuel →
      R.loop? d fuel ⟨done.length, done ++ rest, log⟩ =
        some ⟨(done ++ rest.filterMap (R.refresh? d)).length,
          done ++ rest.filterMap (R.refresh? d), log ++ R.edits d done.length rest⟩ := by
  induction rest with
  | nil =>
    intro done log fuel hfuel
    obtain ⟨fuel, rfl⟩ := Nat.exists_eq_succ_of_ne_zero (Nat.ne_of_gt hfuel)
    rw [loop?, turn?_end (by simp)]
    simp [edits]
  | cons r rest ih =>
    intro done log fuel hfuel
    obtain ⟨fuel, rfl⟩ := Nat.exists_eq_succ_of_ne_zero (Nat.ne_of_gt (Nat.zero_lt_of_lt hfuel))
    have hrest : rest.length < fuel := Nat.lt_of_succ_lt_succ hfuel
    rw [loop?]
    cases hn : d.node? (R.id r) with
    | none =>
      rw [turn?_stale hn, List.filterMap_cons_none (by rw [refresh?, hn, Option.map_none]), edits, hn]
      dsimp only
      rw [ih done _ hrest, List.append_assoc, List.singleton_append]
    | some n =>
      -- the row is passed, and the rest follows what is done with it
      have hnext := ih (done ++ [R.place n r])
        (log ++ if R.isAt n r then [] else [.write done.length (R.moved n r)]) hrest
      rw [List.length_append, List.length_singleton, List.append_assoc, List.singleton_append,
        List.append_assoc, List.singleton_append] at hnext
      rw [turn?_live hn, List.filterMap_cons_some (by rw [refresh?, hn, Option.map_some]), edits, hn]
      dsimp only
      rw [hnext]
      cases R.isAt n r <;> simp

/-! ## the nodes without a row -/

theorem rows_offer (c : RowLoop ρ) (n : Node α) : (R.offer c n).rows = R.append c.rows n := by
  unfold offer append
  split <;> rfl

theorem rows_foldl_offer (ns : List (Node α)) (c : RowLoop ρ) :
    (ns.foldl R.offer c).rows = ns.foldl R.append c.rows :=
  (List.foldl_hom RowLoop.rows fun c n => (rows_offer c n).symm).symm

/-- All that is done for the nodes is to append rows. -/
theorem exists_foldl_offer (ns : List (Node α)) (c : RowLoop ρ) :
    ∃ new, ns.foldl R.offer c = ⟨c.next, c.rows ++ new, c.log ++ new.map .push⟩ := by
  induction ns generalizing c with
  | nil => exact ⟨[], by simp⟩
  | cons n ns ih =>
    obtain ⟨new, hnew⟩ := ih (R.offer c n)
    rw [List.foldl_cons, hnew, offer]
    split
    · exact ⟨new, rfl⟩
    · exact ⟨R.ofNode n :: new, by simp [RowLoop.emit, RowEdit.apply]⟩

theorem Lawful.missing_refreshed (hR : R.Lawful) (rows : List ρ) :
    R.missing d (rows.filterMap (R.refresh? d)) = R.missing d rows := by
  refine congrArg (List.map R.ofNode) (List.filter_congr fun n hn => ?_)
  have hlive : d.isLive n.id = true := Diagram.isLive_iff.2 (Diagram.mem_ids.2 ⟨n, hn, rfl⟩)
  simp only [hR.ids_refreshed, List.mem_filter, hlive, and_true]

/-- What rows there are after a sync. -/
theorem Lawful.sync_eq (hR : R.Lawful) (hd : d.ids.Nodup) (rows : List ρ) :
    R.sync d rows = rows.filterMap (R.refresh? d) ++ R.missing d rows := by
  rw [← hR.missing_refreshed]
  exact hR.foldl_append _ hd

/-- The loop and the nodes leave the rows of a sync. -/
theorem Lawful.mirror?_eq (hR : R.Lawful) (hd : d.ids.Nodup) {fuel : Nat} (h : rows.length < fuel) :
    R.mirror? d fuel rows = some ⟨(rows.filterMap (R.refresh? d)).length, R.sync d rows,
      R.edits d 0 rows ++ (R.missing d rows).map .push⟩ := by
  have hloop : R.loop? d fuel (.start rows) = some ⟨(rows.filterMap (R.refresh? d)).length,
      rows.filterMap (R.refresh? d), R.edits d 0 rows⟩ := loop?_eq rows [] [] h
  obtain ⟨new, hnew⟩ := exists_foldl_offer (R := R) d.nodes
    ⟨(rows.filterMap (R.refresh? d)).length, rows.filterMap (R.refresh? d), R.edits d 0 rows⟩
  have hrows : R.sync d rows = rows.filterMap (R.refresh? d) ++ new := by
    have hrows := rows_foldl_offer (R := R) d.nodes
      ⟨(rows.filterMap (R.refresh? d)).length, rows.filterMap (R.refresh? d), R.edits d 0 rows⟩
    rw [hnew] at hrows
    exact hrows.symm
  have hmissing : new = R.missing d rows :=
    List.append_cancel_left (hrows.symm.trans (hR.sync_eq hd rows))
  rw [mirror?, hloop, Option.map_some, hnew, hrows, hmissing]

/-! ## what is logged -/

theorem edits_of_none {r : ρ} (h : d.node? (R.id r) = none) (rows : List ρ) (i : Nat) :
    R.edits d i (r :: rows) = .remove i :: R.edits d i rows := by
  rw [edits, h]

theorem edits_of_isAt {r : ρ} {n : Node α} (h : d.node? (R.id r) = some n)
    (hat : R.isAt n r = true) (rows : List ρ) (i : Nat) :
    R.edits d i (r :: rows) = R.edits d (i + 1) rows := by
  rw [edits, h]
  exact if_pos hat

theorem edits_of_not_isAt {r : ρ} {n : Node α} (h : d.node? (R.id r) = some n)
    (hat : R.isAt n r = false) (rows : List ρ) (i : Nat) :
    R.edits d i (r :: rows) = .write i (R.moved n r) :: R.edits d (i + 1) rows := by
  rw [edits, h]
  exact if_neg (Bool.not_eq_true _ ▸ hat)

/-- The node that the row is to be moved to. -/
def astray? (R : NodeRows α ρ) (d : Diagram α) (r : ρ) : Option (Node α) :=
  (d.node? (R.id r)).filter (!R.isAt · r)

/-- The loop writes the rows that are not at their nodes, removes those that have none, and appends
nothing. -/
theorem edits_spec (rows : List ρ) : ∀ i,
    (R.edits d i rows).filterMap RowEdit.written? =
        rows.filterMap (fun r => (R.astray? d r).map (R.moved · r)) ∧
      (R.edits d i rows).countP RowEdit.removes = rows.countP (fun r => !d.isLive (R.id r)) ∧
      (R.edits d i rows).filterMap RowEdit.pushed? = [] := by
  induction rows with
  | nil => exact fun i => ⟨rfl, rfl, rfl⟩
  | cons r rows ih =>
    intro i
    rw [List.filterMap_cons, List.countP_cons, ← Diagram.isSome_node?, astray?]
    cases hn : d.node? (R.id r) with
    | none =>
      obtain ⟨hwritten, hremoved, hpushed⟩ := ih i
      rw [edits_of_none hn, List.filterMap_cons_none rfl, List.countP_cons_of_pos rfl,
        List.filterMap_cons_none rfl, hwritten, hremoved, hpushed]
      exact ⟨rfl, rfl, rfl⟩
    | some n =>
      obtain ⟨hwritten, hremoved, hpushed⟩ := ih (i + 1)
      rw [Option.filter_some]
      cases hat : R.isAt n r with
      | true =>
        rw [edits_of_isAt hn hat, hwritten, hremoved, hpushed]
        exact ⟨rfl, rfl, rfl⟩
      | false =>
        have hedits := edits_of_not_isAt hn hat rows i
        rw [hedits, List.filterMap_cons, List.countP_cons, List.filterMap_cons, hwritten, hremoved,
          hpushed]
        exact ⟨rfl, rfl, rfl⟩

/-! ## rows that are up to date -/

/-- Every row is at its node, and every node has a row. -/
structure Current (R : NodeRows α ρ) (d : Diagram α) (rows : List ρ) : Prop where
  placed : ∀ r ∈ rows, ∃ n, d.node? (R.id r) = some n ∧ R.isAt n r = true
  complete : ∀ id ∈ d.ids, id ∈ rows.map R.id

theorem Current.refreshed (h : R.Current d rows) : rows.filterMap (R.refresh? d) = rows := by
  have hsome : ∀ r ∈ rows, R.refresh? d r = some r := by
    intro r hr
    obtain ⟨n, hn, hat⟩ := h.placed r hr
    rw [refresh?, hn, Option.map_some, place_eq, if_pos hat]
  rw [List.filterMap_congr hsome, List.filterMap_some]

theorem missing_eq_nil (h : ∀ n ∈ d.nodes, n.id ∈ rows.map R.id) : R.missing d rows = [] := by
  have hnone : d.nodes.filter (·.id ∉ rows.map R.id) = [] := by
    rw [List.filter_eq_nil_iff]
    intro n hn
    simpa using h n hn
  rw [missing, hnone, List.map_nil]

theorem Current.missing (h : R.Current d rows) : R.missing d rows = [] :=
  missing_eq_nil fun n hn => h.complete n.id (Diagram.mem_ids.2 ⟨n, hn, rfl⟩)

theorem edits_eq_nil (h : ∀ r ∈ rows, ∃ n, d.node? (R.id r) = some n ∧ R.isAt n r = true) :
    ∀ i, R.edits d i rows = [] := by
  induction rows with
  | nil => exact fun i => rfl
  | cons r rows ih =>
    intro i
    obtain ⟨n, hn, hat⟩ := h r List.mem_cons_self
    rw [edits_of_isAt hn hat]
    exact ih (fun r hr => h r (List.mem_cons_of_mem _ hr)) (i + 1)

theorem Current.sync (hR : R.Lawful) (hd : d.ids.Nodup) (h : R.Current d rows) :
    R.sync d rows = rows := by
  rw [hR.sync_eq hd, h.refreshed, h.missing, List.append_nil]

theorem Current.mirror? (hR : R.Lawful) (hd : d.ids.Nodup) (h : R.Current d rows) {fuel : Nat}
    (hfuel : rows.length < fuel) : R.mirror? d fuel rows = some ⟨rows.length, rows, []⟩ := by
  rw [hR.mirror?_eq hd hfuel, h.refreshed, h.sync hR hd, h.missing, edits_eq_nil h.placed,
    List.map_nil, List.append_nil]

/-! ## any rows -/

/-- Setting a coordinate changes that coordinate and not the other, and a new row bears the id and the
position of its node. -/
structure Faithful (R : NodeRows α ρ) : Prop extends Lawful R where
  x_setX : ∀ x r, R.x (R.setX x r) = x
  y_setX : ∀ x r, R.y (R.setX x r) = R.y r
  x_setY : ∀ y r, R.x (R.setY y r) = R.x r
  y_setY : ∀ y r, R.y (R.setY y r) = y
  x_ofNode : ∀ n, R.x (R.ofNode n) = n.position.x
  y_ofNode : ∀ n, R.y (R.ofNode n) = n.position.y

theorem faithful_plain : (plain : NodeRows α (String × Point α)).Faithful where
  toLawful := lawful_plain
  x_setX _ _ := rfl
  y_setX _ _ := rfl
  x_setY _ _ := rfl
  y_setY _ _ := rfl
  x_ofNode _ := rfl
  y_ofNode _ := rfl

/-- What a sync makes of a row of the node `n`: it is at the node's position, is left alone if it was
there before, and has only its coordinates changed otherwise. -/
structure Placed (R : NodeRows α ρ) (n : Node α) (old now : ρ) : Prop where
  id : R.id now = R.id old
  isAt : R.isAt n now = true
  kept : R.isAt n old = true → now = old
  moved : R.isAt n old = false → now = R.setY n.position.y (R.setX n.position.x old)

/-- What the rows `rows` become, and what is done to them for that. -/
structure Mirrored (R : NodeRows α ρ) (d : Diagram α) (rows : List ρ) (c : RowLoop ρ) : Prop where
  outcome : ∃ kept, c.rows = kept ++ R.missing d rows ∧
    List.Forall₂ (fun old now => ∃ n, d.node? (R.id old) = some n ∧ R.Placed n old now)
      (rows.filter fun r => d.isLive (R.id r)) kept
  ids : ∀ id, id ∈ c.rows.map R.id ↔ id ∈ d.ids
  written : c.log.filterMap RowEdit.written? =
    rows.filterMap fun r => (R.astray? d r).map (R.moved · r)
  removed : c.log.countP RowEdit.removes = rows.countP fun r => !d.isLive (R.id r)
  pushed : c.log.filterMap RowEdit.pushed? = R.missing d rows

section Single

variable {R : NodeRows Float32 ρ} {d : Diagram Float32} {rows : List ρ}

theorem Faithful.isAt_moved (hR : R.Faithful) {n : Node Float32} (h : n.position.isFinite = true)
    (r : ρ) : R.isAt n (R.moved n r) = true := by
  obtain ⟨hx, hy⟩ := Bool.and_eq_true_iff.1 h
  rw [isAt, moved, hR.x_setY, hR.x_setX, hR.y_setY, Single.beq_self hx, Single.beq_self hy]
  rfl

theorem Faithful.isAt_ofNode (hR : R.Faithful) {n : Node Float32} (h : n.position.isFinite = true) :
    R.isAt n (R.ofNode n) = true := by
  obtain ⟨hx, hy⟩ := Bool.and_eq_true_iff.1 h
  rw [isAt, hR.x_ofNode, hR.y_ofNode, Single.beq_self hx, Single.beq_self hy]
  rfl

theorem Faithful.placed (hR : R.Faithful) {n : Node Float32} (h : n.position.isFinite = true)
    (r : ρ) : R.Placed n r (R.place n r) := by
  have hid := hR.id_place n r
  rw [place_eq] at hid ⊢
  cases hat : R.isAt n r with
  | true => exact ⟨rfl, hat, fun _ => rfl, fun h => absurd (hat.symm.trans h) (by decide)⟩
  | false =>
    rw [hat] at hid
    exact ⟨hid, hR.isAt_moved h r, fun h => absurd (hat.symm.trans h) (by decide), fun _ => rfl⟩

theorem Faithful.forall₂_refreshed (hR : R.Faithful)
    (hd : ∀ n ∈ d.nodes, n.position.isFinite = true) (rows : List ρ) :
    List.Forall₂ (fun old now => ∃ n, d.node? (R.id old) = some n ∧ R.Placed n old now)
      (rows.filter fun r => d.isLive (R.id r)) (rows.filterMap (R.refresh? d)) := by
  induction rows with
  | nil => exact .nil
  | cons r rows ih =>
    rw [List.filter_cons, List.filterMap_cons, ← Diagram.isSome_node?, refresh?]
    cases hn : d.node? (R.id r) with
    | none => exact ih
    | some n =>
      have hfinite := hd n (Diagram.node?_eq_some hn).1
      exact .cons ⟨n, hn, hR.placed hfinite r⟩ ih

/-- Rows are up to date after a sync. -/
theorem Faithful.current_sync (hR : R.Faithful) (hids : d.ids.Nodup)
    (hd : ∀ n ∈ d.nodes, n.position.isFinite = true) (rows : List ρ) :
    R.Current d (R.sync d rows) where
  placed r hr := by
    rw [hR.sync_eq hids, List.mem_append] at hr
    rcases hr with hr | hr
    · obtain ⟨old, -, hold⟩ := List.mem_filterMap.1 hr
      obtain ⟨n, hn, rfl⟩ := Option.map_eq_some_iff.1 hold
      have hplaced := hR.placed (hd n (Diagram.node?_eq_some hn).1) old
      exact ⟨n, hplaced.id ▸ hn, hplaced.isAt⟩
    · obtain ⟨n, hn, rfl⟩ := List.mem_map.1 hr
      have hmem := (List.mem_filter.1 hn).1
      refine ⟨n, ?_, hR.isAt_ofNode (hd n hmem)⟩
      rw [hR.id_ofNode]
      exact Diagram.node?_of_mem hids hmem
  complete _ h := (hR.mem_ids_sync hids).2 h

variable {supply : List String}

/-- **Rows follow the nodes.**  Whatever rows there are, and in whatever order, the loop comes to its
end, and with it the sync.  The rows of nodes stay, as often and in the order in which they are there;
each is numerically at its node's position then, and was written only if it was not there before.
After them there is a new row for each node that had none, in the order of the nodes.  A second sync
does nothing at all. -/
theorem sync_mirrors (hR : R.Faithful) (h : Diagram.Reached supply d) (rows : List ρ) :
    ∃ c, (∀ fuel, rows.length < fuel → R.mirror? d fuel rows = some c) ∧
      c.rows = R.sync d rows ∧ R.Mirrored d rows c ∧
      ∀ fuel, c.rows.length < fuel →
        ∃ c', R.mirror? d fuel c.rows = some c' ∧ c'.rows = c.rows ∧ c'.log = [] := by
  have hids := h.sound.ids_nodup
  have hcurrent := hR.current_sync hids h.finite rows
  obtain ⟨hwritten, hremoved, hpushed⟩ := edits_spec (R := R) (d := d) rows 0
  refine ⟨_, fun fuel hfuel => hR.mirror?_eq hids hfuel, rfl, ⟨?_, ?_, ?_, ?_, ?_⟩,
    fun fuel hfuel => ⟨_, hcurrent.mirror? hR.toLawful hids hfuel, rfl, rfl⟩⟩
  · exact ⟨_, hR.sync_eq hids rows, hR.forall₂_refreshed h.finite rows⟩
  · exact fun id => hR.mem_ids_sync hids
  · have hnone : ((R.missing d rows).map RowEdit.push).filterMap RowEdit.written? = [] := by
      simp [List.filterMap_map, Function.comp_def, RowEdit.written?]
    rw [List.filterMap_append, hwritten, hnone, List.append_nil]
  · have hnone : ((R.missing d rows).map RowEdit.push).countP RowEdit.removes = 0 := by
      simp [RowEdit.removes]
    rw [List.countP_append, hremoved, hnone, Nat.add_zero]
  · have hall : ((R.missing d rows).map RowEdit.push).filterMap RowEdit.pushed? =
        R.missing d rows := by
      simp [List.filterMap_map, Function.comp_def, RowEdit.pushed?]
    rw [List.filterMap_append, hpushed, hall, List.nil_append]

/-- Two rows of nodes that are gone stand side by side, two rows are of one node and one of them is at
its position, and the first node has no row. -/
theorem sync_mirrors_shuffled :
    let d : Diagram Float32 := (Diagram.empty ["a", "b", "c"]).run
      [.add .linear ⟨1.0, 2.0⟩, .add .linear ⟨3.0, 4.0⟩, .add .concat ⟨0.0, 0.0⟩]
    let rows : List (String × Point Float32) := [("x", ⟨0.0, 0.0⟩), ("y", ⟨3.0, 4.0⟩),
      ("c", ⟨0.0, -0.0⟩), ("b", ⟨3.0, 5.0⟩), ("b", ⟨3.0, 4.0⟩)]
    ∃ c, plain.mirror? d 6 rows = some c ∧ plain.Mirrored d rows c ∧
      c.rows = [("c", ⟨0.0, -0.0⟩), ("b", ⟨3.0, 4.0⟩), ("b", ⟨3.0, 4.0⟩), ("a", ⟨1.0, 2.0⟩)] ∧
      c.log =
        [.remove 0, .remove 0, .write 1 ("b", ⟨3.0, 4.0⟩), .push ("a", ⟨1.0, 2.0⟩)] := by
  intro d rows
  have hreached : Diagram.Reached ["a", "b", "c"] d := Diagram.reached_run _ _
  obtain ⟨c, hloop, -, hmirrored, -⟩ := sync_mirrors faithful_plain hreached rows
  have hc := hloop 6 (by decide)
  have hstate : (plain.mirror? d 6 rows).map (fun c => (c.rows, c.log)) =
      some ([("c", ⟨0.0, -0.0⟩), ("b", ⟨3.0, 4.0⟩), ("b", ⟨3.0, 4.0⟩), ("a", ⟨1.0, 2.0⟩)],
        [.remove 0, .remove 0, .write 1 ("b", ⟨3.0, 4.0⟩), .push ("a", ⟨1.0, 2.0⟩)]) := by
    decide +kernel
  rw [hc, Option.map_some, Option.some.injEq, Prod.mk.injEq] at hstate
  exact ⟨c, hc, hmirrored, hstate.1, hstate.2⟩

end Single

end NodeRows

end Wireboard
