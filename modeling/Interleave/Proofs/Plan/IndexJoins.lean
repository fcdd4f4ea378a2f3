import Interleave.Proofs.Pipeline.Lineups
import Interleave.Proofs.Plan.Lookups
import Interleave.Proofs.Plan.Safety

/-!
Joins in the order of an index. The rows of an index entry line up, and those of one line are told apart by
their tables, whose numbers grow on the way down. Main statement: over every store that was reached by
insertions and deletions, a join above a lookup above a scan of an index yields one joined row an entry,
with the wanted ancestors in front and the branch behind, and no parent and no child alone.
-/

namespace Interleave

open Pipeline (Lineup IndexLookup LookupScope Delivers)

theorem exists_of_forall₂_append {α β : Type} {R : α → β → Prop} {a b : List α} {l : List β}
    (each : List.Forall₂ R (a ++ b) l) :
    ∃ l₁ l₂, List.Forall₂ R a l₁ ∧ List.Forall₂ R b l₂ ∧ l = l₁ ++ l₂ :=
  ⟨l.take a.length, l.drop a.length, (List.forall₂_take_append l a b each.flip).flip,
    (List.forall₂_drop_append l a b each.flip).flip, (List.take_append_drop a.length l).symm⟩

/-- The parent of a table and what is above the parent are above the table. -/
theorem Catalog.Forest.isAncestor_of_parent {c : Catalog} (forest : c.Forest) {p t : Table}
    {column : Nat} (known : t ∈ c.tables) (link : c.Links p t column) {others : List Table}
    (higher : ∀ a ∈ others, c.isAncestor a.id p.id = true) :
    ∀ a ∈ p :: others, c.isAncestor a.id t.id = true := by
  intro a asked
  rw [forest.isAncestor_child known link, Bool.or_eq_true, decide_eq_true_iff]
  rcases List.mem_cons.1 asked with rfl | asked
  · exact .inr rfl
  · exact .inl (higher a asked)

namespace Table

/-- Rows of tables with different numbers have different types. -/
theorem not_same_rowType {a b : Table} (different : a.id.toNat ≠ b.id.toNat) :
    a.rowType.same b.rowType = false := by
  rw [Bool.eq_false_iff]
  intro same
  exact different (congrArg TableId.toNat (RowType.tableId_of_same_rowType same))

end Table

namespace StoredRow

variable {c : Catalog} {a b : StoredRow}

theorem Valid.lastTable? (valid : a.Valid c) : a.key.lastTable? = some a.table.id := by
  rw [RowKey.lastTable?, valid.last]
  rfl

theorem Valid.mem_above_iff (valid : a.Valid c) (valid' : b.Valid c) :
    a.key ∈ b.key.above ↔ a.key.isAbove b.key = true := by
  rw [RowKey.mem_above_iff valid.written valid'.written, and_iff_right]
  intro none
  have last := valid.last
  rw [none] at last
  cases last

/-- On the way down the numbers of tables grow. -/
theorem Valid.lt_of_isAbove (forest : c.Forest) (valid : a.Valid c) (valid' : b.Valid c)
    (above : a.key.isAbove b.key = true) : a.table.id.toNat < b.table.id.toNat :=
  RowKey.lt_of_mem_above forest valid'.known valid'.follows ((valid.mem_above_iff valid').2 above)
    valid.lastTable?

/-- A row under the key of another without the last segment is above the other. -/
theorem Valid.parent_isAbove (forest : c.Forest) (valid : a.Valid c) (valid' : b.Valid c) {p : Table}
    {column : Nat} (link : c.Links p b.table column)
    (key : a.key = b.key.truncate (b.key.depth - 1)) : a.key.isAbove b.key = true := by
  rw [← valid.mem_above_iff valid', key]
  exact RowKey.parent_mem_above forest valid'.known valid'.follows link

end StoredRow

/-- A lookup of tables above a table, in the order of its path. -/
def Pipeline.IndexLookup.along (c : Catalog) (t : Table) (wanted : List Table) (scope : LookupScope) :
    IndexLookup :=
  ⟨t.group, ((c.path t.id).map Table.id).filter (wanted.map Table.id).contains, scope⟩

namespace Store

/-- Whether a row of a table is one that an index has in a range. -/
def Selects (s : Store) (i : Index) (t : Table) (range : IndexRange) (r : StoredRow) : Prop :=
  r ∈ s.rows ∧ r.table = t ∧ range.Admits (i.tuple r.values)

/-- Whether a line is that of a stored row: the rows of other tables above it, root first, the row of the
parent's table under the key without the last segment, the row itself, and the rows below it in the order of
their keys, if they are asked for. -/
structure LinesUp (s : Store) (p : Table) (others : List Table) (scope : LookupScope) (r : StoredRow)
    (l : Lineup) : Prop where
  above : ∃ stored : List StoredRow, l.above = stored.map StoredRow.row ∧
    stored.Pairwise (fun a b => a.key.isAbove b.key = true) ∧
    ∀ a, a ∈ stored ↔ a ∈ s.rows ∧ a.table ∈ others ∧ a.key.isAbove r.key = true
  parent : ∃ q ∈ s.rows, l.parent = q.row ∧ q.table = p ∧
    q.key = r.key.truncate (r.key.depth - 1)
  child : l.child = r.row
  below : ∃ stored : List StoredRow, l.below = stored.map StoredRow.row ∧
    stored.Pairwise (fun a b => a.key.order b.key = .lt) ∧
    ∀ d, d ∈ stored ↔ scope = .branch ∧ d ∈ s.rows ∧ r.key.isAbove d.key = true

namespace Holds

variable {s : Store} (holds : s.Holds s.rows)
include holds

/-- The rows under certain keys of a group. -/
theorem rows_of_keys {g : Group} (inCatalog : g ∈ s.catalog.groups) {keys : List RowKey}
    {out : List Row} (stored : List.Forall₂ (s.Stored g) keys out) :
    ∃ l : List StoredRow, l.map StoredRow.key = keys ∧ l.map StoredRow.row = out ∧
      ∀ r, r ∈ l ↔ r ∈ s.rows ∧ r.key ∈ keys := by
  obtain ⟨l, same, out, inside⟩ : ∃ l : List StoredRow, l.map StoredRow.key = keys ∧
      l.map StoredRow.row = out ∧ ∀ r ∈ l, r ∈ s.rows := by
    induction stored with
    | nil => exact ⟨[], rfl, rfl, by simp⟩
    | @cons key row _ _ first _ ih =>
      obtain ⟨l, rfl, rfl, inside⟩ := ih
      obtain ⟨t, values, here, _, rfl⟩ := holds.hasRow_of_stored inCatalog first
      exact ⟨⟨t, key, values⟩ :: l, rfl, rfl, List.forall_mem_cons.2 ⟨here, inside⟩⟩
  refine ⟨l, same, out, fun r => ⟨fun member => ⟨inside r member, same ▸ List.mem_map_of_mem member⟩, ?_⟩⟩
  rintro ⟨member, listed⟩
  rw [← same] at listed
  obtain ⟨r', member', key⟩ := List.mem_map.1 listed
  have valid := holds.mirrors.valid
  obtain rfl := holds.mirrors.distinct r' (inside r' member') r member
    ((valid r' (inside r' member')).segment_eq_of_key (valid r member) (congrArg RowKey.bytes key))
  exact member'

section Chain

variable {p t : Table} {column : Nat} (link : s.catalog.Links p t column) {r : StoredRow}
  (member : r ∈ s.rows) (table : r.table = t)
  (parent : ∃ values, s.HasRow p (r.key.truncate (r.key.depth - 1)) values) {others : List Table}
  (higher : ∀ a ∈ others, a ∈ s.catalog.tables ∧ s.catalog.isAncestor a.id p.id = true)
include link member table parent higher

/-- A chain of rows that are all stored: those of the other tables, the parent's and the row itself. -/
theorem chain_lines {g : Group} (found : s.catalog.group? t.group = some g) {out : List Row}
    (chain : List.Forall₂ (s.Stored g) (r.key.chain ((p :: others).map Table.id)) out) :
    ∃ (above : List StoredRow) (q : StoredRow), out = above.map StoredRow.row ++ [q.row, r.row] ∧
      above.Pairwise (fun a b => a.key.isAbove b.key = true) ∧
      (∀ a, a ∈ above ↔ a ∈ s.rows ∧ a.table ∈ others ∧ a.key.isAbove r.key = true) ∧
      q ∈ s.rows ∧ q.table = p ∧ q.key = r.key.truncate (r.key.depth - 1) := by
  have forest := holds.forest
  have valid := holds.mirrors.valid
  subst table
  have known := (valid r member).known
  have inCatalog := (forest.group?_eq_some found).1
  have own : p.id ∉ others.map Table.id := by
    intro inside
    obtain ⟨a, asked, same⟩ := List.mem_map.1 inside
    obtain ⟨knownA, above⟩ := higher a asked
    have less := (forest.isAncestor_spec knownA link.1 above).2
    rw [same] at less
    exact Nat.lt_irrefl _ less
  rw [List.map_cons, RowKey.chain_child forest known (valid r member).follows link own] at chain
  obtain ⟨front, back, first, last, rfl⟩ := exists_of_forall₂_append chain
  obtain ⟨above, keys, rfl, members⟩ := holds.rows_of_keys inCatalog first
  obtain ⟨values, row⟩ := parent
  have group : s.catalog.group? p.group = some g := by rwa [forest.parent_group known link]
  refine ⟨above, ⟨p, _, values⟩, ?_, ?_, fun a => ?_, row, rfl, rfl⟩
  · rcases last with _ | ⟨first, _ | ⟨second, _ | _⟩⟩
    rw [first.unique (row.stored group), second.unique (HasRow.stored member found)]
    rfl
  · have sorted := (RowKey.above_pairwise (valid r member).written).filter
      fun b => b.lastTable?.any (others.map Table.id).contains
    rw [← keys] at sorted
    exact List.pairwise_map.1 sorted
  · rw [members, List.mem_filter]
    refine and_congr_right fun stored => ?_
    have here := valid a stored
    rw [here.mem_above_iff (valid r member), here.lastTable?, Option.any_some, List.contains_iff_mem,
      and_comm]
    refine and_congr_left' ⟨fun inside => ?_, List.mem_map_of_mem⟩
    obtain ⟨b, asked, same⟩ := List.mem_map.1 inside
    rwa [← forest.id_inj (higher b asked).1 here.known same]

end Chain

/-- The rows below a stored row. -/
theorem branch_lines {r : StoredRow} (member : r ∈ s.rows) {g : Group}
    (found : s.catalog.group? r.table.group = some g) {out : List Row}
    (descendants : s.RowsBelow g r.key out) :
    ∃ below : List StoredRow, out = below.map StoredRow.row ∧
      below.Pairwise (fun a b => a.key.order b.key = .lt) ∧
      ∀ d, d ∈ below ↔ d ∈ s.rows ∧ r.key.isAbove d.key = true := by
  have forest := holds.forest
  have valid := holds.mirrors.valid
  obtain ⟨keys, stored, sorted, members⟩ := descendants
  obtain ⟨below, rfl, rfl, inside⟩ := holds.rows_of_keys (forest.group?_eq_some found).1 stored
  refine ⟨below, rfl, List.pairwise_map.1 sorted, fun d => ?_⟩
  rw [inside, members]
  refine and_congr_right fun here => and_iff_left_of_imp fun above => ?_
  have group := (valid d here).group_of_isAbove forest (valid r member).written
    (valid r member).known (valid r member).follows above
  rw [group] at found
  exact ⟨_, HasRow.stored here found⟩

/-- A key of a chain has a row, if each wanted table has one above the row. -/
theorem not_firstMissing {r : StoredRow} (member : r ∈ s.rows) {g : Group}
    (found : s.catalog.group? r.table.group = some g) {wanted : List Table}
    (asked : ∀ a ∈ wanted, a.group = r.table.group ∧
      ∃ key values, key.isAbove r.key = true ∧ s.HasRow a key values) (gone : RowKey) :
    ¬ s.FirstMissing g (r.key.chain (wanted.map Table.id)) gone := by
  have forest := holds.forest
  have valid := holds.mirrors.valid
  rintro ⟨before, after, split, _, absent⟩
  have listed : gone ∈ r.key.chain (wanted.map Table.id) := by
    rw [split]
    simp
  by_cases own : gone = r.key
  · exact absent _ (own ▸ HasRow.stored member found)
  obtain ⟨higher, id, inside, last⟩ := RowKey.mem_above_of_mem_chain listed own
  obtain ⟨a, wanted, rfl⟩ := List.mem_map.1 inside
  obtain ⟨group, key, values, above, row⟩ := asked a wanted
  have here : (⟨a, key, values⟩ : StoredRow) ∈ s.rows := row
  -- a key above the row is told by its table
  have nodup : (r.key.segments.map (·.table)).Nodup := by
    rw [(valid r member).follows]
    exact forest.path_nodup _ (valid r member).known
  have met := IndexLookup.ancestorKey_eq nodup
    (((valid _ here).mem_above_iff (valid r member)).2 above) (valid _ here).lastTable?
  rw [IndexLookup.ancestorKey_eq nodup higher last] at met
  rw [← group] at found
  obtain rfl := Except.ok.inj met
  exact absent _ (row.stored found)

section Lines

variable {p t : Table} {column : Nat} (link : s.catalog.Links p t column) {others : List Table}
  (higher : ∀ a ∈ others, a ∈ s.catalog.tables ∧ s.catalog.isAncestor a.id p.id = true)
include link higher

/-- An entry of an index expands to a line, if the wanted rows above its row are stored. -/
theorem exists_lineup (batches : 1 ≤ s.batchSize) {r : StoredRow} (member : r ∈ s.rows)
    (table : r.table = t)
    (parent : ∃ values, s.HasRow p (r.key.truncate (r.key.depth - 1)) values)
    (ancestors : ∀ a ∈ others, ∃ key values, key.isAbove r.key = true ∧ s.HasRow a key values)
    (scope : LookupScope) :
    ∃ l, s.LinesUp p others scope r l ∧
      IndexLookup.Expands (.along s.catalog t (p :: others) scope) s r.key (l.rows.map .ok) := by
  have forest := holds.forest
  have valid := holds.mirrors.valid
  subst table
  have known := (valid r member).known
  obtain ⟨g, inCatalog, found, _⟩ := forest.groupName_spec known
  have number : r.table.group = g.id := (forest.group?_eq_some found).2.symm
  have wanted : ∀ id ∈ (p :: others).map Table.id, s.catalog.isAncestor id r.table.id = true :=
    List.forall_mem_map.2
      (forest.isAncestor_of_parent known link fun a asked => (higher a asked).2)
  have asked : ∀ a ∈ p :: others, a.group = r.table.group ∧
      ∃ key values, key.isAbove r.key = true ∧ s.HasRow a key values := by
    refine List.forall_mem_cons.2 ⟨⟨forest.parent_group known link, ?_⟩, fun a asked => ⟨?_, ?_⟩⟩
    · obtain ⟨values, row⟩ := parent
      have here : (⟨p, _, values⟩ : StoredRow) ∈ s.rows := row
      exact ⟨_, values, (valid _ here).parent_isAbove forest (valid r member) link rfl, row⟩
    · exact (forest.isAncestor_spec (higher a asked).1 link.1 (higher a asked).2).1.trans
        (forest.parent_group known link)
    · exact ancestors a asked
  have legible := (RowKey.ofBytes_eq_ok_iff.1 (show s.HasRow _ _ _ from member).readable).2
  obtain ⟨answers, expansion, expands⟩ := @IndexLookup.exists_expansion s g forest inCatalog
    (holds.wellFormed inCatalog) holds.batches batches r.table known number
    (.along s.catalog r.table (p :: others) scope) number _ wanted rfl r.key (valid r member).follows
    legible
  cases expansion with
  | missing first => exact absurd first (holds.not_firstMissing member found asked _)
  | row alone chain =>
    obtain ⟨above, q, rfl, sorted, members, stored, table, key⟩ :=
      holds.chain_lines link member rfl parent higher found chain
    refine ⟨⟨above.map StoredRow.row, q.row, r.row, []⟩, ⟨⟨above, rfl, sorted, members⟩,
      ⟨q, stored, rfl, table, key⟩, rfl, ⟨[], rfl, .nil, fun d => ?_⟩⟩, expands⟩
    obtain rfl : scope = .row := alone
    simp
  | branch whole chain descendants =>
    obtain ⟨above, q, rfl, sorted, members, stored, table, key⟩ :=
      holds.chain_lines link member rfl parent higher found chain
    obtain ⟨below, rfl, sorted', members'⟩ := holds.branch_lines member found descendants
    refine ⟨⟨above.map StoredRow.row, q.row, r.row, below.map StoredRow.row⟩,
      ⟨⟨above, rfl, sorted, members⟩, ⟨q, stored, rfl, table, key⟩, rfl,
        ⟨below, rfl, sorted', fun d => ?_⟩⟩, ?_⟩
    · rw [members']
      exact (and_iff_right whole).symm
    · simpa [Lineup.rows] using expands

section Fits

variable {scope : LookupScope} {r : StoredRow} {l : Lineup} (lines : s.LinesUp p others scope r l)
include lines

/-- What comes before the parent of a line belongs to tables with smaller numbers. -/
theorem lt_of_mem_above {row : Row} (first : row ∈ l.above) :
    ∃ a ∈ s.rows, a.row = row ∧ a.table.id.toNat < p.id.toNat := by
  obtain ⟨stored, same, _, members⟩ := lines.above
  rw [same] at first
  obtain ⟨a, listed, rfl⟩ := List.mem_map.1 first
  obtain ⟨member, asked, _⟩ := (members a).1 listed
  obtain ⟨known, above⟩ := higher a.table asked
  exact ⟨a, member, rfl, (holds.forest.isAncestor_spec known link.1 above).2⟩

/-- Of a line the parent's row alone has the parent's type, and the child's alone that of the child. -/
theorem lineup_fits (member : r ∈ s.rows) (table : r.table = t) : l.Fits p.rowType t.rowType := by
  have forest := holds.forest
  have valid := holds.mirrors.valid
  subst table
  have known := (valid r member).known
  have less := forest.parent_lt known link
  obtain ⟨q, stored, parent, rfl, key⟩ := lines.parent
  have above := (valid q stored).parent_isAbove forest (valid r member) link key
  refine ⟨fun row first => ?_, ?_, ?_, ?_, fun row last => ?_⟩
  · obtain ⟨a, _, rfl, higher⟩ := holds.lt_of_mem_above link higher lines first
    exact ⟨Table.not_same_rowType (by omega), Table.not_same_rowType (by omega)⟩
  · rw [parent]
    exact RowType.same_refl _
  · rw [lines.child]
    exact ⟨Table.not_same_rowType (by omega), RowType.same_refl _⟩
  · rw [parent, lines.child]
    exact above
  · obtain ⟨stored', same, _, members⟩ := lines.below
    rw [same] at last
    obtain ⟨d, listed, rfl⟩ := List.mem_map.1 last
    obtain ⟨_, member', below⟩ := (members d).1 listed
    have lower := (valid r member).lt_of_isAbove forest (valid d member') below
    refine ⟨Table.not_same_rowType (by omega), Table.not_same_rowType (by omega), ?_⟩
    rw [parent]
    exact RowKey.isAbove_trans above below

/-- The parent of a line is above no row that another line begins with. -/
theorem lineup_outside {r' : StoredRow} {l' : Lineup} (lines' : s.LinesUp p others scope r' l')
    {row : Row} (first : row ∈ l'.above) : l.parent.isAbove row = false := by
  have forest := holds.forest
  have valid := holds.mirrors.valid
  obtain ⟨q, stored, parent, rfl, _⟩ := lines.parent
  obtain ⟨a, member, rfl, higher⟩ := holds.lt_of_mem_above link higher lines' first
  rw [parent, Bool.eq_false_iff]
  intro above
  exact Nat.lt_asymm higher ((valid q stored).lt_of_isAbove forest (valid a member) above)

end Fits

/-- A join above a lookup delivers the joined lines of its entries, and leaves neither a parent nor a
child in them. -/
theorem indexJoin_delivers (ends : s.TraversalsEnd) {scope : LookupScope} {stored : List StoredRow}
    {lineups : List Lineup}
    (lines : ∀ l ∈ lineups, ∃ r ∈ s.rows, r.table = t ∧ s.LinesUp p others scope r l)
    (expands : List.Forall₂ (fun r l => IndexLookup.Expands
      (.along s.catalog t (p :: others) scope) s r.key (l.rows.map .ok)) stored lineups)
    {q : Pipeline} {bindings : Bindings} {i : Index}
    (entries : Delivers q.machine s bindings (stored.map (i.row t))) :
    Delivers (Pipeline.flatten p.rowType t.rowType
      (.indexLookup (.along s.catalog t (p :: others) scope) q)).machine s bindings
      (lineups.flatMap (Lineup.joined p.rowType t.rowType)) ∧
    ∀ row ∈ lineups.flatMap (Lineup.joined p.rowType t.rowType),
      row.rowType.same p.rowType = false ∧ row.rowType.same t.rowType = false := by
  have fits : ∀ l ∈ lineups, l.Fits p.rowType t.rowType := by
    intro l listed
    obtain ⟨r, member, table, up⟩ := lines l listed
    exact holds.lineup_fits link higher up member table
  have outside : ∀ l ∈ lineups, ∀ l' ∈ lineups, ∀ row ∈ l'.above, l.parent.isAbove row = false := by
    intro l listed l' listed' row first
    obtain ⟨_, _, _, up⟩ := lines l listed
    obtain ⟨_, _, _, up'⟩ := lines l' listed'
    exact holds.lineup_outside link higher up up' first
  have answered : List.Forall₂
      (IndexLookup.Answered (.along s.catalog t (p :: others) scope) s) (stored.map (i.row t))
      ((lineups.map Lineup.rows).map (·.map .ok)) := by
    rw [List.map_map, List.forall₂_map_left_iff, List.forall₂_map_right_iff]
    exact expands.imp fun r _ expands => ⟨r.key, rfl, expands⟩
  have joined : Delivers (Pipeline.flatten p.rowType t.rowType
      (.indexLookup (.along s.catalog t (p :: others) scope) q)).machine s bindings _ :=
    Pipeline.Flatten.delivers (IndexLookup.delivers ends entries answered)
  rw [← List.flatMap_def, Pipeline.Flatten.flow_lineups fits outside] at joined
  refine ⟨joined, fun row member => ?_⟩
  obtain ⟨l, listed, inside⟩ := List.mem_flatMap.1 member
  exact (fits l listed).joined row inside

end Lines

end Holds

end Store

/-- A join of the rows of a table with those of its parent's table in the order of an index. -/
def Plan.indexJoin (p t : Table) (others : List Table) (scope : LookupScope)
    (scan : Pipeline.IndexScan) : Plan :=
  .flatten p.rowType t.rowType
    (.indexLookup t.group ((p :: others).map Table.rowType) scope (.indexScan scan))

namespace Plan

variable {c : Catalog}

theorem exists_ancestorTables {table : TableId} {wanted : List RowType}
    (allowed : ∀ w ∈ wanted, w.isIndex = false ∧ c.isAncestor w.tableId table = true)
    (done : List TableId) : ∃ tables, ancestorTables c table done wanted = .ok tables := by
  induction wanted generalizing done with
  | nil => exact ⟨done, rfl⟩
  | cons w wanted ih =>
    obtain ⟨⟨plain, above⟩, others⟩ := List.forall_mem_cons.1 allowed
    obtain ⟨tables, ok⟩ := ih others (if done.contains w.tableId then done else done ++ [w.tableId])
    refine ⟨tables, ?_⟩
    simp only [ancestorTables, plain, above]
    exact ok

variable (forest : c.Forest) {t : Table} (known : t ∈ c.tables)
include forest known

/-- A lookup of tables above the indexed one is accepted. -/
theorem checkLookup_of_ancestors {input : Plan} (indexed : input.indexedTable? = some t.id)
    {ancestors : List RowType}
    (allowed : ∀ w ∈ ancestors, w.isIndex = false ∧ c.isAncestor w.tableId t.id = true) :
    checkLookup c t.group ancestors input =
      .ok (((c.path t.id).map Table.id).filter (ancestors.map RowType.tableId).contains) := by
  obtain ⟨tables, ok⟩ : ∃ tables, checkLookup c t.group ancestors input = .ok tables := by
    obtain ⟨g, _, found, _⟩ := forest.groupName_spec known
    obtain ⟨tables, ok⟩ := exists_ancestorTables allowed []
    refine ⟨rootFirst (c.path t.id) tables, ?_⟩
    simp only [checkLookup, checkGroup, found, indexed, forest.table?_id known, ok, Option.isSome_some,
      Option.map_some, ne_eq, not_true_eq_false, if_true, if_false]
    rfl
  obtain ⟨id, _, indexed', _, _, _, same⟩ := checkLookup_eq_ok ok
  obtain rfl := Option.some.inj (indexed.symm.trans indexed')
  rw [ok, same]

/-- A join in the order of an index is accepted, and looks for the wanted tables in the order of the path. -/
theorem build_indexJoin {p : Table} {column : Nat} (link : c.Links p t column) {others : List Table}
    (wanted : ∀ a ∈ p :: others, c.isAncestor a.id t.id = true) (scope : LookupScope)
    {scan : Pipeline.IndexScan} (built : build c (.indexScan scan) = .ok (.indexScan scan))
    (indexed : scan.rowType.tableId = t.id) :
    build c (indexJoin p t others scope scan) = .ok (.flatten p.rowType t.rowType
      (.indexLookup (.along c t (p :: others) scope) (.indexScan scan))) := by
  have joins := joinsParentAndChild_of_links forest (.inl rfl) known link
  have below : (Plan.indexScan scan).indexedTable? = some t.id := congrArg some indexed
  have allowed : ∀ w ∈ (p :: others).map Table.rowType,
      w.isIndex = false ∧ c.isAncestor w.tableId t.id = true :=
    List.forall_mem_map.2 fun a asked => ⟨rfl, wanted a asked⟩
  have checked := checkLookup_of_ancestors forest known below allowed
  rw [List.map_map] at checked
  rw [indexJoin, build, joins, build, checked, built]
  rfl

end Plan

namespace Store

/-- A join with the parents' table in the order of an index, over a store that was reached by insertions and
deletions. If the wanted rows above all indexed rows in the range are stored, each indexed row in its turn has
the other wanted rows in front, root first, then one row that joins it with its parent's, then the rows below
it; no parent and no child is left alone, whether or not the parent is that of the row before. -/
theorem indexJoin_run {declarations : List Declaration} {c : Catalog}
    (accepted : Catalog.ofDeclarations declarations = .ok c) (plain : c.Plain)
    (config : Storage.EngineConfig) (batchSize : Nat) (changes : List Change) {s : Store}
    (reached : (fresh c config batchSize).run changes = s) {id : IndexId} {i : Index}
    (found : c.index? id = some i) {t p : Table} (on : c.table? i.table = some t) {column : Nat}
    (link : c.Links p t column) {scan : Pipeline.IndexScan}
    (typed : c.indexType? id = some scan.rowType) {range : IndexRange}
    (fits : range.width ≤ i.columns.length) {others : List Table}
    (higher : ∀ a ∈ others, a ∈ c.tables ∧ c.isAncestor a.id p.id = true)
    (parents : ∀ r, s.Selects i t range r →
      ∃ values, s.HasRow p (r.key.truncate (r.key.depth - 1)) values)
    (ancestors : ∀ a ∈ others, ∀ r, s.Selects i t range r →
      ∃ key values, key.isAbove r.key = true ∧ s.HasRow a key values)
    (scope : LookupScope) {settings : Config} (valid : settings.batchSize ≠ 0) :
    ∃ e e', ∃ stored : List StoredRow, ∃ lineups : List Lineup,
      Execution.create c (.indexJoin p t others scope scan) settings = .ok e ∧
      e.bind scan.bindingKey (.range range) = .ok e' ∧
      (e'.collect s).1 = .ok (lineups.flatMap (Lineup.joined p.rowType t.rowType)) ∧
      (∀ r, r ∈ stored ↔ s.Selects i t range r) ∧
      stored.Pairwise (fun a b =>
        (List.compareLex Value.keyOrder (i.tuple a.values) (i.tuple b.values)).then
          (a.key.order b.key) = .lt) ∧
      List.Forall₂ (s.LinesUp p others scope) stored lineups ∧
      ∀ row ∈ lineups.flatMap (Lineup.joined p.rowType t.rowType),
        row.rowType.same p.rowType = false ∧ row.rowType.same t.rowType = false := by
  have forest := Catalog.forest_of_declarations accepted
  have fit := Catalog.indexesFit_of_declarations accepted
  obtain ⟨holds, batches, rfl⟩ := holds_of_run forest plain config batchSize reached
  obtain ⟨known, number⟩ := forest.table?_eq_some on
  obtain ⟨t', on', type, _⟩ := fit.indexType?_eq_some found
  obtain rfl := Option.some.inj (on.symm.trans on')
  have rowType : scan.rowType = i.rowType t := Option.some.inj (typed.symm.trans type)
  have isIndex : scan.rowType.indexId? = some id := by
    rw [rowType, ← (fit.index?_eq_some found).2]
    rfl
  have indexed : scan.rowType.tableId = t.id := by
    rw [rowType, number]
    rfl
  have bound : (Bindings.empty.set scan.bindingKey (.range range)).range? scan.bindingKey =
      .ok (some range) := by
    rw [Bindings.range?, Bindings.get?_set]
  obtain ⟨t', on', stored, entries, sorted, members⟩ :=
    Pipeline.IndexScan.delivers holds batches fit found typed fits bound
  obtain rfl := Option.some.inj (on.symm.trans on')
  have selects (r : StoredRow) : r ∈ stored ↔ s.Selects i t range r := members r
  have each : ∀ r ∈ stored, ∃ l, s.LinesUp p others scope r l ∧ r.table = t ∧ r ∈ s.rows ∧
      IndexLookup.Expands (.along s.catalog t (p :: others) scope) s r.key (l.rows.map .ok) := by
    intro r listed
    have chosen := (selects r).1 listed
    obtain ⟨l, up, expands⟩ := holds.exists_lineup link higher batches chosen.1 chosen.2.1
      (parents r chosen) (fun a asked => ancestors a asked r chosen) scope
    exact ⟨l, up, chosen.2.1, chosen.1, expands⟩
  obtain ⟨lineups, related⟩ := exists_forall₂ each
  have lines : ∀ l ∈ lineups, ∃ r ∈ s.rows, r.table = t ∧ s.LinesUp p others scope r l :=
    ((List.forall₂_and_left _ _).1 (related.flip.imp fun _ r both =>
      ⟨⟨r, both.2.2.1, both.2.1, both.1⟩, both⟩)).1
  have entries : Delivers (Pipeline.indexScan scan).machine _ _ _ := entries
  obtain ⟨delivers, apart⟩ := holds.indexJoin_delivers link higher
    (traversalsEnd_of_plain plain batches holds.batches) lines
    (related.imp fun _ _ both => both.2.2.2) entries
  have built := Plan.build_indexJoin forest known link
    (forest.isAncestor_of_parent known link fun a asked => (higher a asked).2) scope
    (Plan.build_indexScan found isIndex) indexed
  exact ⟨_, _, stored, lineups, Execution.create_eq built valid,
    Execution.bind_eq delivers .empty scan.bindingKey (.range range),
    Execution.collect_eq delivers, selects, sorted, related.imp fun _ _ both => both.1, apart⟩

end Store

/-- Customers, their orders, the items of the orders and what was sent back, with items found by orders. -/
def depotDeclarations : List Declaration :=
  [.group "depot", .root "depot" "customer" ["id"] "id",
    .child "order" "customer" ["id", "customer"] "id" "customer",
    .child "item" "order" ["id", "order"] "id" "order",
    .child "return" "item" ["id", "item"] "id" "item", .index "by_order" "item" ["order"]]

def depotCustomer : Table := ⟨⟨1⟩, "customer", ["id"], 0, none, ⟨1⟩⟩

def depotOrder : Table := ⟨⟨2⟩, "order", ["id", "customer"], 0, some ⟨⟨1⟩, 1⟩, ⟨1⟩⟩

def depotItem : Table := ⟨⟨3⟩, "item", ["id", "order"], 0, some ⟨⟨2⟩, 1⟩, ⟨1⟩⟩

def depotReturn : Table := ⟨⟨4⟩, "return", ["id", "item"], 0, some ⟨⟨3⟩, 1⟩, ⟨1⟩⟩

def depot : Catalog where
  groups := #[⟨⟨1⟩, "depot", ⟨1⟩⟩]
  tables := #[depotCustomer, depotOrder, depotItem, depotReturn]
  indexes := #[⟨⟨1⟩, "by_order", ⟨3⟩, [1]⟩]
  groupNames := .ofList [("depot", ⟨1⟩)]
  tableNames := .ofList [("customer", ⟨1⟩), ("order", ⟨2⟩), ("item", ⟨3⟩), ("return", ⟨4⟩)]
  indexNames := .ofList [("by_order", ⟨1⟩)]

theorem depot_accepted : Catalog.ofDeclarations depotDeclarations = .ok depot := by
  have groups : depotDeclarations.filterMap Declaration.group? = ["depot"] := rfl
  have tables : depotDeclarations.filterMap Declaration.table? =
      [⟨"customer", ["id"], "id", .root "depot"⟩,
        ⟨"order", ["id", "customer"], "id", .child "customer" "customer"⟩,
        ⟨"item", ["id", "order"], "id", .child "order" "order"⟩,
        ⟨"return", ["id", "item"], "id", .child "item" "item"⟩] := rfl
  have indexes : depotDeclarations.filterMap Declaration.index? =
    [("by_order", "item", ["order"])] := rfl
  rw [Catalog.ofDeclarations, groups, tables, indexes]
  simp [Draft.addGroup, Draft.empty, Draft.addTable, Draft.addRoot, Draft.addChild, Draft.push,
    Draft.column, Draft.repeated?, Draft.tableNamed?, Draft.rooted, Draft.addIndex,
    Draft.columnPositions, bind, Except.bind, pure, Except.pure, Except.map, depot, depotCustomer,
    depotOrder, depotItem, depotReturn, Catalog.numbered?, List.findIdx?, List.findIdx?.go, UInt16.size,
    UInt32.size, List.foldlM, TableId.ofNat, TableId.toNat, Std.HashMap.getElem_insert,
    Std.HashMap.ofList_cons, Std.HashMap.insertMany_cons]

theorem depot_plain : depot.Plain := by
  constructor <;> simp [depot, depotCustomer, depotOrder, depotItem, depotReturn] <;>
    (unfold Storage.Layout.IsPlain; decide +kernel)

/-- A customer's order of two items, one of them sent back, and an item of an order that is not there. -/
def depotChanges : List Change :=
  [.insert ⟨1⟩ [.int 1], .insert ⟨2⟩ [.int 5, .int 1], .insert ⟨3⟩ [.int 7, .int 5],
    .insert ⟨3⟩ [.int 8, .int 5], .insert ⟨3⟩ [.int 10, .int 6], .insert ⟨4⟩ [.int 9, .int 7]]

def depotIndex : Index := ⟨⟨1⟩, "by_order", ⟨3⟩, [1]⟩

def depotScan : Pipeline.IndexScan := ⟨0, .index ⟨1⟩ ⟨3⟩ "by_order" ["item.order"], none, true⟩

namespace Store

def depotStore : Store := (fresh depot .standard 1).run depotChanges

def depotOrderKey : RowKey := (RowKey.empty.push ⟨1⟩ (.int 1)).push ⟨2⟩ (.int 5)

/-- The rows of the depot by their keys. -/
theorem depot_hasRow {t : Table} {key : RowKey} {values : List Value}
    (known : depot.table? t.id = some t) (group : t.group = ⟨1⟩) (made : key.Made)
    (last : key.lastTable? = some t.id)
    (entry : (depotStore.contents.getIn? (groupSpace "depot") key.bytes).map Codec.Body.decodeRow =
      some (.ok values)) : depotStore.HasRow t key values := by
  have catalog : depotStore.catalog = depot :=
    (holds_of_run (Catalog.forest_of_declarations depot_accepted) depot_plain .standard 1 rfl).2.2
  obtain ⟨body, found, decoded⟩ := Option.map_eq_some_iff.1 entry
  refine ⟨catalog ▸ known, ⟨⟨⟨1⟩, "depot", ⟨1⟩⟩, body, ?_, found, decoded⟩,
    made.legible.ofBytes_bytes, last⟩
  rw [catalog, group]
  rfl

/-- The items of one order stand under its key. -/
theorem depot_selects {r : StoredRow}
    (chosen : depotStore.Selects depotIndex depotItem (.point [.int 5]) r) :
    r.key = depotOrderKey.push ⟨3⟩ (.int 7) ∨ r.key = depotOrderKey.push ⟨3⟩ (.int 8) := by
  obtain ⟨rows, keeps⟩ := keeps_run (Catalog.forest_of_declarations depot_accepted) depot_plain
    .standard 1 depotChanges
  obtain rfl := keeps.holds.rows_eq
  obtain ⟨member, table, ⟨_, high⟩⟩ := chosen
  have listed := (keeps.listed r.table r.values).1 ⟨r.key, member⟩
  rw [table] at listed
  have ledger : Ledger.of depot depotChanges =
      [(depotReturn, [.int 9, .int 7]), (depotItem, [.int 10, .int 6]), (depotItem, [.int 8, .int 5]),
        (depotItem, [.int 7, .int 5]), (depotOrder, [.int 5, .int 1]), (depotCustomer, [.int 1])] := by
    decide +kernel
  -- no two rows have the same table and key value
  have told {key : RowKey} {values : List Value} (row : depotStore.HasRow depotItem key values)
      (same : r.values = values) : r.key = key := by
    refine congrArg StoredRow.key (keeps.holds.mirrors.distinct r member ⟨_, key, values⟩ row ?_)
    rw [StoredRow.segment, StoredRow.own, table, same]
    rfl
  have made : depotOrderKey.Made := .push (.push .empty ⟨1⟩ (.int 1)) ⟨2⟩ (.int 5)
  have items : r.values = [.int 10, .int 6] ∨ r.values = [.int 8, .int 5] ∨
      r.values = [.int 7, .int 5] := by
    rw [ledger] at listed
    simpa [depotReturn, depotItem, depotOrder, depotCustomer] using listed
  rcases items with other | second | first
  · have inside := high _ rfl
    rw [other] at inside
    rcases inside with below | ⟨same, _⟩
    · exact absurd below (by decide)
    · exact absurd same (by decide)
  · exact .inr (told (depot_hasRow rfl rfl (made.push ⟨3⟩ (.int 8)) rfl (by decide +kernel)) second)
  · exact .inl (told (depot_hasRow rfl rfl (made.push ⟨3⟩ (.int 7)) rfl (by decide +kernel)) first)

/-- Two items of one order come after each other: each has the customer in front and is joined with the
order, and the first has its return behind. -/
theorem indexJoin_run_depot : Catalog.ofDeclarations depotDeclarations = .ok depot ∧ depot.Plain ∧
    depot.index? ⟨1⟩ = some depotIndex ∧ depot.table? ⟨3⟩ = some depotItem ∧
    depot.Links depotOrder depotItem 1 ∧ depot.indexType? ⟨1⟩ = some depotScan.rowType ∧
    (IndexRange.point [.int 5]).width ≤ depotIndex.columns.length ∧
    (∀ a ∈ [depotCustomer], a ∈ depot.tables ∧ depot.isAncestor a.id depotOrder.id = true) ∧
    (∀ r, depotStore.Selects depotIndex depotItem (.point [.int 5]) r →
      ∃ values, depotStore.HasRow depotOrder (r.key.truncate (r.key.depth - 1)) values) ∧
    (∀ a ∈ [depotCustomer], ∀ r, depotStore.Selects depotIndex depotItem (.point [.int 5]) r →
      ∃ key values, key.isAbove r.key = true ∧ depotStore.HasRow a key values) ∧
    Config.standard.batchSize ≠ 0 ∧
    ∃ e e' rows, Execution.create depot
        (.indexJoin depotOrder depotItem [depotCustomer] .branch depotScan) .standard = .ok e ∧
      e.bind (.operator 0) (.range (.point [.int 5])) = .ok e' ∧
      (e'.collect depotStore).1 = .ok rows ∧
      rows.map Row.values = [[.int 1], [.int 5, .int 1, .int 7, .int 5], [.int 9, .int 7], [.int 1],
        [.int 5, .int 1, .int 8, .int 5]] ∧
      ∀ row ∈ rows, row.rowType.same depotOrder.rowType = false ∧
        row.rowType.same depotItem.rowType = false := by
  have typed : depot.indexType? ⟨1⟩ = some depotScan.rowType := by decide
  have link : depot.Links depotOrder depotItem 1 := ⟨by simp [depot], rfl⟩
  have fits : (IndexRange.point [.int 5]).width ≤ depotIndex.columns.length := by decide
  have higher : ∀ a ∈ [depotCustomer],
      a ∈ depot.tables ∧ depot.isAncestor a.id depotOrder.id = true :=
    List.forall_mem_singleton.2 ⟨by simp [depot], by decide⟩
  have parents : ∀ r, depotStore.Selects depotIndex depotItem (.point [.int 5]) r →
      ∃ values, depotStore.HasRow depotOrder (r.key.truncate (r.key.depth - 1)) values := by
    intro r chosen
    have order : depotStore.HasRow depotOrder depotOrderKey [.int 5, .int 1] :=
      depot_hasRow rfl rfl (.push (.push .empty ⟨1⟩ (.int 1)) ⟨2⟩ (.int 5)) rfl (by decide +kernel)
    rcases depot_selects chosen with key | key
    · rw [key]
      exact ⟨_, order⟩
    · rw [key]
      exact ⟨_, order⟩
  have ancestors : ∀ a ∈ [depotCustomer], ∀ r,
      depotStore.Selects depotIndex depotItem (.point [.int 5]) r →
      ∃ key values, key.isAbove r.key = true ∧ depotStore.HasRow a key values := by
    refine List.forall_mem_singleton.2 fun r chosen => ⟨RowKey.empty.push ⟨1⟩ (.int 1), [.int 1], ?_, ?_⟩
    · rcases depot_selects chosen with key | key
      · rw [key]
        decide
      · rw [key]
        decide
    · exact depot_hasRow rfl rfl (.push .empty ⟨1⟩ (.int 1)) rfl (by decide +kernel)
  have valid : Config.standard.batchSize ≠ 0 := by decide
  obtain ⟨e, e', stored, lineups, created, bound, collected, _, _, _, apart⟩ :=
    indexJoin_run depot_accepted depot_plain .standard 1 depotChanges rfl rfl rfl link typed fits higher
      parents ancestors .branch valid
  have computed : ((Execution.create depot
      (.indexJoin depotOrder depotItem [depotCustomer] .branch depotScan) .standard).bind fun e =>
        (e.bind (.operator 0) (.range (.point [.int 5]))).bind fun e' =>
          (e'.collect depotStore).1.map (List.map Row.values)) =
      .ok [[.int 1], [.int 5, .int 1, .int 7, .int 5], [.int 9, .int 7], [.int 1],
        [.int 5, .int 1, .int 8, .int 5]] := by
    decide +kernel
  change e.bind (.operator 0) (.range (.point [.int 5])) = .ok e' at bound
  change (e'.collect depotStore).1 = _ at collected
  rw [created, Except.bind, bound, Except.bind, collected, Except.map, Except.ok.injEq] at computed
  exact ⟨depot_accepted, depot_plain, rfl, rfl, link, typed, fits, higher, parents, ancestors, valid, e, e',
    _, created, bound, collected, computed, apart⟩

end Store

end Interleave
