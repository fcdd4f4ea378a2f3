import Interleave.Proofs.Key.Chains
import Interleave.Proofs.Pipeline.Production
import Interleave.Proofs.Store.Contents

/-!
From entries to rows. A running lookup owes the rest of one entry and all of the entries that follow.
Main statements: a lookup answers entry by entry, each as it expands, and an entry expands to its wanted
ancestors, its row and the rows below it, or to one error that names the first of these keys without a row.
-/

namespace Interleave

theorem forall₂_filterMap {α β : Type} {f : α → Option β} {R : β → α → Prop} {l : List α}
    (each : ∀ a ∈ l, ∃ b, f a = some b ∧ R b a) : List.Forall₂ R (l.filterMap f) l := by
  induction l with
  | nil => exact .nil
  | cons a l ih =>
    obtain ⟨⟨b, image, related⟩, others⟩ := List.forall_mem_cons.1 each
    rw [List.filterMap_cons_some image]
    exact .cons related (ih others)

theorem exists_forall₂ {α β : Type} {R : α → β → Prop} {l : List α}
    (each : ∀ a ∈ l, ∃ b, R a b) : ∃ l', List.Forall₂ R l l' := by
  induction l with
  | nil => exact ⟨[], .nil⟩
  | cons a l ih =>
    obtain ⟨⟨b, first⟩, others⟩ := List.forall_mem_cons.1 each
    obtain ⟨l', rest⟩ := ih others
    exact ⟨b :: l', .cons first rest⟩

namespace Pipeline

variable {σ : Type}

/-- Whether a machine answers in a certain way, call after call, and then ends. -/
inductive Reports (m : Machine σ) (store : Store) : σ → List (Except QueryError Row) → Prop where
  | done {s s' : σ} (ended : m.advance store s = (.ok none, s')) : Reports m store s []
  | more {s s' : σ} {answer : Except QueryError Row} {answers : List (Except QueryError Row)}
      (next : m.advance store s = (answer.map some, s')) (others : Reports m store s' answers) :
      Reports m store s (answer :: answers)

namespace IndexLookup

/-- Whether certain rows are still to come from a branch, if there is one. -/
def Leaves (store : Store) : Option Traversal → List Row → Prop
  | none, rows => rows = []
  | some branch, rows => branch.Yields store rows

/-- What is let out for a key: the rows that it expands to, or the error. -/
inductive Expands (lookup : IndexLookup) (store : Store) (k : RowKey) :
    List (Except QueryError Row) → Prop where
  | failed {e : QueryError} {read : Nat} (found : expand lookup store k = (.error e, read)) :
      Expands lookup store k [.error e]
  | spread {rows below : List Row} {last : Row} {branch : Option Traversal} {read : Nat}
      (found : expand lookup store k = (.ok (rows, last, branch), read))
      (leaves : Leaves store branch below) :
      Expands lookup store k ((rows ++ last :: below).map .ok)

/-- What is let out for an entry. -/
def Answered (lookup : IndexLookup) (store : Store) (entry : Row)
    (answers : List (Except QueryError Row)) : Prop :=
  ∃ k, entry.key = some k ∧ Expands lookup store k answers

/-- What a running lookup is to let out: the rows that are ready, the rest of the branch and what its
input's entries expand to. -/
def Owes (lookup : IndexLookup) (m : Machine σ) (store : Store) (s : State σ)
    (answers : List (Except QueryError Row)) : Prop :=
  s.progress.phase = .running ∧ ∃ below entries outcomes, Leaves store s.branch below ∧
    Produces m store s.input entries ∧ List.Forall₂ (Answered lookup store) entries outcomes ∧
    answers = (s.pending ++ below).map .ok ++ outcomes.flatten

/-- A lookup gives the first of the answers that it owes, and owes the others. -/
def Answers (lookup : IndexLookup) (m : Machine σ) (store : Store)
    (answer : Except QueryError (Option Row) × State σ) : List (Except QueryError Row) → Prop
  | [] => ∃ s', answer = (.ok none, s')
  | first :: others => ∃ s', answer = (first.map some, s') ∧ Owes lookup m store s' others

variable {lookup : IndexLookup} {m : Machine σ} {store : Store}

section Entries

variable {s : State σ} {entries : List Row} {outcomes : List (List (Except QueryError Row))}
  (running : s.progress.phase = .running) (input : Produces m store s.input entries)
  (answered : List.Forall₂ (Answered lookup store) entries outcomes)
include running input answered

theorem emitFirst_answers {below : List Row} {branch : Option Traversal}
    (leaves : Leaves store branch below) (rows : List Row) (last : Row) :
    Answers lookup m store (emitFirst s rows last branch)
      ((rows ++ last :: below).map .ok ++ outcomes.flatten) := by
  cases rows with
  | nil => exact ⟨_, rfl, running, below, entries, outcomes, leaves, input, answered, rfl⟩
  | cons row rows =>
    refine ⟨_, rfl, running, below, entries, outcomes, leaves, input, answered, ?_⟩
    rw [List.append_assoc rows]
    rfl

/-- With nothing left of an entry a lookup goes on with the next. -/
theorem nextEntry_answers (idle : s.pending = []) (closed : s.branch = none) :
    Answers lookup m store (nextEntry lookup m store s) outcomes.flatten := by
  cases input with
  | @done _ below ended =>
    cases answered
    exact ⟨{ s with input := below, progress := s.progress.exhaust },
      by simp only [nextEntry, ended]⟩
  | @more _ below entry entries next _ others =>
    cases answered with
    | @cons _ answers _ outcomes first rest =>
      obtain ⟨k, key, expands⟩ := first
      cases expands with
      | @failed e read found =>
        refine ⟨{ s with input := below, read := s.read + read }, ?_, running, [], entries, outcomes,
          ?_, others, rest, ?_⟩
        · simp only [nextEntry, next, key, found]
          rfl
        · exact (congrArg (Leaves store · []) closed).mpr rfl
        · rw [idle]
          rfl
      | @spread rows below' last branch read found leaves =>
        simp only [nextEntry, next, key, found]
        exact emitFirst_answers (s := { s with input := below, read := s.read + read }) running
          others rest leaves rows last

end Entries

theorem Owes.answers {s : State σ} {answers : List (Except QueryError Row)}
    (owes : Owes lookup m store s answers) :
    Answers lookup m store ((machine lookup m).advance store s) answers := by
  obtain ⟨running, below, entries, outcomes, leaves, input, answered, rfl⟩ := owes
  obtain ⟨progress, source, pending, branch, read⟩ := s
  simp only [machine, advance, progress.begin_running running, pull]
  rcases pending with _ | ⟨row, rest⟩
  · rcases branch with _ | branch
    · obtain rfl : below = [] := leaves
      exact nextEntry_answers (s := ⟨{ progress with current := none }, source, [], none, read⟩)
        running input answered rfl rfl
    · cases leaves with
      | done ended =>
        simp only [ended]
        exact nextEntry_answers (s := ⟨{ progress with current := none }, source, [], none, read⟩)
          running input answered rfl rfl
      | @more _ branch' row rows next stands _ others =>
        simp only [next, stands]
        exact ⟨_, rfl, running, rows, entries, outcomes, others, input, answered, rfl⟩
  · exact ⟨_, rfl, running, below, entries, outcomes, leaves, input, answered, rfl⟩

/-- A running lookup answers as it owes. -/
theorem Owes.reports {s : State σ} {answers : List (Except QueryError Row)}
    (owes : Owes lookup m store s answers) : Reports (machine lookup m) store s answers := by
  have given := owes.answers
  clear owes
  induction answers generalizing s with
  | nil =>
    obtain ⟨s', ended⟩ := given
    exact .done ended
  | cons first others ih =>
    obtain ⟨s', next, owes⟩ := given
    exact .more next (ih owes.answers)

/-- A lookup over entries that its input delivers answers entry by entry. -/
theorem reports {bindings : Bindings} {entries : List Row}
    {outcomes : List (List (Except QueryError Row))} (input : Delivers m store bindings entries)
    (answered : List.Forall₂ (Answered lookup store) entries outcomes) :
    ∃ s, (machine lookup m).launch store bindings (machine lookup m).fresh = (.ok (), s) ∧
      Reports (machine lookup m) store s outcomes.flatten := by
  obtain ⟨_, below, launched, produces⟩ := input
  have opened : (machine lookup m).launch store bindings (machine lookup m).fresh =
      (.ok (), { (machine lookup m).fresh with progress := Progress.fresh.start, input := below }) :=
    launch_ok (s := (machine lookup m).fresh) rfl launched
  have owes : Owes lookup m store
      { (machine lookup m).fresh with progress := Progress.fresh.start, input := below }
      outcomes.flatten :=
    ⟨rfl, [], entries, outcomes, rfl, produces, answered, rfl⟩
  exact ⟨_, opened, owes.reports⟩

/-- What a key expands to, as the group holds it: its chain and, if asked for, the rows below it, or an
error that names the first key of the chain without a row. -/
inductive Expansion (store : Store) (g : Group) (wanted : List TableId) (scope : LookupScope)
    (k : RowKey) : List (Except QueryError Row) → Prop where
  | missing {gone : RowKey} (first : store.FirstMissing g (k.chain wanted) gone) :
      Expansion store g wanted scope k [.error (.rowNotFound gone)]
  | row {rows : List Row} (asked : scope = .row)
      (chain : List.Forall₂ (store.Stored g) (k.chain wanted) rows) :
      Expansion store g wanted scope k (rows.map .ok)
  | branch {rows below : List Row} (asked : scope = .branch)
      (chain : List.Forall₂ (store.Stored g) (k.chain wanted) rows)
      (descendants : store.RowsBelow g k below) :
      Expansion store g wanted scope k ((rows ++ below).map .ok)

theorem ancestorKey_eq {k b : RowKey} (nodup : (k.segments.map (·.table)).Nodup)
    (above : b ∈ k.above) {table : TableId} (last : b.lastTable? = some table) :
    ancestorKey table k = .ok b := by
  obtain ⟨d, inside, rfl⟩ := RowKey.mem_above.1 above
  have low : d < k.segments.length := Nat.lt_of_succ_lt inside
  rw [RowKey.lastTable?_truncate low, RowKey.tableAt?, List.getElem?_eq_getElem low] at last
  have position : k.position? table = some d := by
    refine List.findIdx?_eq_some_iff_getElem.2 ⟨low, by simpa using last, fun j before same => ?_⟩
    have bound : d < (k.segments.map (·.table)).length := by rwa [List.length_map]
    have again := (@List.Nodup.getElem_inj_iff _ _ nodup j (before.trans bound) d bound).1
    rw [List.getElem_map, List.getElem_map] at again
    have own : k.segments[d].table = table := Option.some.inj last
    exact Nat.ne_of_lt before (again ((of_decide_eq_true same).trans own.symm))
  simp only [ancestorKey, position, Option.bind_some, RowKey.ancestor?, if_pos inside]

/-- The wanted tables above a table lead to the keys of a chain. -/
theorem forall₂_ancestorKey {c : Catalog} (forest : c.Forest) {t : Table} (known : t ∈ c.tables)
    {k : RowKey} (follows : c.Follows t k) {wanted : List TableId}
    (ancestors : ∀ id ∈ wanted, c.isAncestor id t.id = true) :
    List.Forall₂ (fun table b => ancestorKey table k = .ok b)
      (((c.path t.id).map Table.id).filter wanted.contains)
      (k.above.filter fun b => b.lastTable?.any wanted.contains) := by
  have nodup : (k.segments.map (·.table)).Nodup := by
    rw [follows]
    exact forest.path_nodup t known
  rw [← RowKey.filterMap_wanted forest known follows ancestors]
  refine forall₂_filterMap fun b member => ?_
  obtain ⟨above, asked⟩ := List.mem_filter.1 member
  obtain ⟨table, last, _⟩ := (Option.any_eq_true ..).1 asked
  exact ⟨table, last, ancestorKey_eq nodup above last⟩

/-- Whether a fetch tells exactly whether there is a row under a key. -/
def Tells (store : Store) (g : Group) (b : RowKey) : Prop :=
  (∃ row, fetch store b = .ok row ∧ store.Stored g b row) ∨
    (fetch store b = .error (.rowNotFound b) ∧ ∀ row, ¬ store.Stored g b row)

theorem fetchAncestors_cases {g : Group} {k : RowKey} {tables : List TableId} {keys : List RowKey}
    (found : List.Forall₂ (fun table b => ancestorKey table k = .ok b) tables keys)
    (tells : ∀ b ∈ keys, Tells store g b) :
    (∃ rows read, fetchAncestors store k tables = (.ok rows, read) ∧
      List.Forall₂ (store.Stored g) keys rows) ∨
    ∃ gone read, fetchAncestors store k tables = (.error (.rowNotFound gone), read) ∧
      store.FirstMissing g keys gone := by
  induction found with
  | nil => exact .inl ⟨[], 0, rfl, .nil⟩
  | @cons table b tables keys first _ ih =>
    obtain ⟨front, others⟩ := List.forall_mem_cons.1 tells
    rcases front with ⟨row, fetched, stored⟩ | ⟨absent, gone⟩
    · rcases ih others with ⟨rows, read, fetched', stored'⟩ | ⟨gone, read, failed, missing⟩
      · refine .inl ⟨row :: rows, read + 1, ?_, .cons stored stored'⟩
        simp only [fetchAncestors, first, fetched, fetched']
        rfl
      · refine .inr ⟨gone, read + 1, ?_, missing.cons ⟨row, stored⟩⟩
        simp only [fetchAncestors, first, fetched, failed]
        rfl
    · refine .inr ⟨b, 1, ?_, .head gone⟩
      simp only [fetchAncestors, first, absent]

section WellFormed

variable {g : Group} (forest : store.catalog.Forest) (inCatalog : g ∈ store.catalog.groups)
  (wellFormed : store.WellFormed g) (cursors : 1 ≤ store.engine.cursorBatch)
  (batches : 1 ≤ store.batchSize)
include forest inCatalog wellFormed

theorem tells {t : Table} (known : t ∈ store.catalog.tables) (group : t.group = g.id)
    {wanted : List TableId} {k b : RowKey} (follows : store.catalog.Follows t k)
    (legible : k.IsLegible) (member : b ∈ k.chain wanted) : Tells store g b := by
  obtain ⟨root, knownRoot, last, knownLast, first, grouped, ends⟩ :=
    RowKey.stations forest known follows member
  obtain ⟨d, _, rfl⟩ := RowKey.mem_chain forest known follows member
  rcases wellFormed.lookup forest inCatalog (legible.truncate _) first knownRoot
    (grouped.trans group) ends knownLast with ⟨nothing, absent⟩ | ⟨row, found, stored⟩
  · exact .inr ⟨by simp only [fetch, nothing], absent⟩
  · exact .inl ⟨row, by simp only [fetch, found], stored⟩

include cursors batches in
theorem fetchRoot_cases {k : RowKey} (legible : k.IsLegible) :
    (∃ row branch below, fetchRoot store g.id k = (.ok (row, branch), 1) ∧
      branch.Yields store below ∧ store.Stored g k row ∧ store.RowsBelow g k below) ∨
    (fetchRoot store g.id k = (.error (.rowNotFound k), 0) ∧ ∀ row, ¬ store.Stored g k row) := by
  have opened : store.traverseBranch g.id k = .ok (.between store (Store.groupSpace g.name) .row
      (some (.included k.bytes, .pastExtensions k.bytes))) := by
    simp only [Store.traverseBranch, Store.group, forest.group?_id inCatalog]
    rfl
  rcases wellFormed.branch_cases cursors batches legible with
    ⟨row, below, stored, descendants, yields⟩ | ⟨absent, rows, others, yields⟩
  · cases yields with
    | @more _ branch _ _ next stands _ rest =>
      have here : branch.currentKey? = some k :=
        (Traversal.currentKey?_of_currentRow stands).trans stored.row_key
      refine .inl ⟨row, branch, below, ?_, rest, stored, descendants⟩
      simp only [fetchRoot, opened, next, here, stands]
      simp [Except.map]
  · refine .inr ⟨?_, absent⟩
    cases yields with
    | done ended => simp only [fetchRoot, opened, ended]
    | @more _ branch row rows next stands _ _ =>
      have elsewhere : branch.currentKey? ≠ some k := by
        rw [Traversal.currentKey?_of_currentRow stands]
        exact others row List.mem_cons_self
      simp only [fetchRoot, opened, next, if_pos elsewhere]

include cursors batches in
/-- Every key that goes along the path of a table of the group expands. -/
theorem exists_expansion {t : Table} (known : t ∈ store.catalog.tables) (group : t.group = g.id)
    {lookup : IndexLookup} (reads : lookup.group = g.id) {wanted : List TableId}
    (ancestors : ∀ id ∈ wanted, store.catalog.isAncestor id t.id = true)
    (ordered : lookup.ancestors =
      ((store.catalog.path t.id).map Table.id).filter wanted.contains)
    {k : RowKey} (follows : store.catalog.Follows t k) (legible : k.IsLegible) :
    ∃ answers, Expansion store g wanted lookup.scope k answers ∧ Expands lookup store k answers := by
  obtain ⟨id, tables, scope⟩ := lookup
  obtain rfl : id = g.id := reads
  have met := forall₂_ancestorKey forest known follows ancestors
  rw [← show tables = _ from ordered] at met
  have tells (b : RowKey) (member : b ∈ k.chain wanted) : Tells store g b :=
    tells forest inCatalog wellFormed known group follows legible member
  rcases fetchAncestors_cases met fun b member => tells b (List.mem_append_left _ member) with
    ⟨rows, read, fetched, stored⟩ | ⟨gone, read, failed, missing⟩
  · cases scope with
    | row =>
      rcases tells k (by simp [RowKey.chain]) with ⟨row, found, here⟩ | ⟨absent, gone⟩
      · have expanded : expand ⟨g.id, tables, .row⟩ store k = (.ok (rows, row, none), read + 1) := by
          simp only [expand, fetched, found]
          rfl
        exact ⟨(rows ++ [row]).map .ok, .row rfl (List.rel_append stored (.cons here .nil)),
          .spread expanded rfl⟩
      · have failed : expand ⟨g.id, tables, .row⟩ store k = (.error (.rowNotFound k), read + 1) := by
          simp only [expand, fetched, absent]
          rfl
        exact ⟨_, .missing (.last stored gone), .failed failed⟩
    | branch =>
      rcases fetchRoot_cases forest inCatalog wellFormed cursors batches legible with
        ⟨row, branch, below, found, leaves, here, descendants⟩ | ⟨absent, gone⟩
      · have expanded : expand ⟨g.id, tables, .branch⟩ store k =
            (.ok (rows, row, some branch), read + 1) := by
          simp only [expand, fetched, found]
          rfl
        refine ⟨(rows ++ row :: below).map .ok, ?_, .spread expanded leaves⟩
        rw [← List.singleton_append, ← List.append_assoc]
        exact .branch rfl (List.rel_append stored (.cons here .nil)) descendants
      · have failed : expand ⟨g.id, tables, .branch⟩ store k = (.error (.rowNotFound k), read) := by
          simp only [expand, fetched, absent]
          rfl
        exact ⟨_, .missing (.last stored gone), .failed failed⟩
  · have failed : expand ⟨g.id, tables, scope⟩ store k = (.error (.rowNotFound gone), read) := by
      simp only [expand, failed]
    exact ⟨_, .missing (missing.append [k]), .failed failed⟩

end WellFormed

end IndexLookup

end Pipeline

end Interleave
