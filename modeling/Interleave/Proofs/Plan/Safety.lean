import Interleave.Proofs.Pipeline.Safety
import Interleave.Proofs.Plan.Reruns

/-!
What can go wrong with an accepted plan. Main statement: over every store that was reached by insertions and
deletions, a plan whose row types belong to the catalog collects its rows; or it does not open, for a
binding that does not suit an index, and reads nothing; or it fails with the error of a predicate on a row
of its input, or because a wanted ancestor of an indexed row is not stored.
-/

namespace Interleave

open Pipeline (IndexScan LookupScope IndexLookup Serves Took)

/-- Whether a row type is one of a table or of an index of a catalog, or of two such types joined. -/
inductive Catalog.Types (c : Catalog) : RowType → Prop where
  | table {id : TableId} {type : RowType} (found : c.tableType? id = some type) : Types c type
  | index {id : IndexId} {type : RowType} (found : c.indexType? id = some type) : Types c type
  | flattened {parent child : RowType} (upper : Types c parent) (lower : Types c child) :
    Types c (.flattened parent child)

namespace Plan

/-- The row types that a plan names. -/
def rowTypes : Plan → List RowType
  | groupScan _ => []
  | indexScan scan => [scan.rowType]
  | select target _ input => target :: input.rowTypes
  | flatten parent child input => parent :: child :: input.rowTypes
  | indexLookup _ ancestors _ input => ancestors ++ input.rowTypes

/-- Whether a plan may give a row: one that is stored, one that stands for a stored row in an index, or two
that are joined. -/
inductive MayGive (s : Store) : Plan → Row → Prop where
  | stored {group : GroupId} {t : Table} {key : RowKey} {values : List Value}
    (row : s.HasRow t key values) (inside : t.group = group) :
    MayGive s (.groupScan group) (StoredRow.row ⟨t, key, values⟩)
  | entry {scan : IndexScan} {id : IndexId} {i : Index} {t : Table} {key : RowKey} {values : List Value}
    (isIndex : scan.rowType.indexId? = some id) (found : s.catalog.index? id = some i)
    (on : s.catalog.table? i.table = some t) (row : s.HasRow t key values) :
    MayGive s (.indexScan scan) (i.row t ⟨t, key, values⟩)
  | selected {target : RowType} {predicate : Predicate} {input : Plan} {row : Row}
    (below : MayGive s input row) : MayGive s (.select target predicate input) row
  | passed {parent child : RowType} {input : Plan} {row : Row} (below : MayGive s input row) :
    MayGive s (.flatten parent child input) row
  | joined {parent child : RowType} {input : Plan} {row row' : Row} (upper : MayGive s input row)
    (lower : MayGive s input row') (above : row.isAbove row' = true) :
    MayGive s (.flatten parent child input) (row.join row' (.flattened parent child))
  | lookedUp {group : GroupId} {ancestors : List RowType} {scope : LookupScope} {input : Plan} {t : Table}
    {key : RowKey} {values : List Value} (row : s.HasRow t key values) (inside : t.group = group) :
    MayGive s (.indexLookup group ancestors scope input) (StoredRow.row ⟨t, key, values⟩)

/-- Whether a plan may fail with an error while it is read: a predicate fails on a row that it is asked
about, or a wanted ancestor of a row of the indexed table is not stored. -/
inductive MayFail (s : Store) : Plan → QueryError → Prop where
  | predicate {target : RowType} {predicate : Predicate} {input : Plan} {row : Row} {e : QueryError}
    (given : MayGive s input row) (same : row.rowType.same target = true)
    (failed : predicate.evaluate row = .error e) : MayFail s (.select target predicate input) e
  | ancestor {group : GroupId} {ancestors : List RowType} {scope : LookupScope} {input : Plan} {g : Group}
    {t : Table} {key gone : RowKey} {values : List Value} (indexed : input.indexedTable? = some t.id)
    (row : s.HasRow t key values) (above : gone ∈ key.above)
    (wanted : ∃ type ∈ ancestors, gone.lastTable? = some type.tableId)
    (found : s.catalog.group? group = some g)
    (absent : s.contents.getIn? (Store.groupSpace g.name) gone.bytes = none) :
    MayFail s (.indexLookup group ancestors scope input) (.rowNotFound gone)
  | select {target : RowType} {predicate : Predicate} {input : Plan} {e : QueryError}
    (below : MayFail s input e) : MayFail s (.select target predicate input) e
  | flatten {parent child : RowType} {input : Plan} {e : QueryError} (below : MayFail s input e) :
    MayFail s (.flatten parent child input) e
  | indexLookup {group : GroupId} {ancestors : List RowType} {scope : LookupScope} {input : Plan}
    {e : QueryError} (below : MayFail s input e) :
    MayFail s (.indexLookup group ancestors scope input) e

end Plan

/-- Whether the bindings do not suit a scan of an index: a range is required and missing, something else is
bound, or the range has more values than the index has columns. -/
inductive Pipeline.IndexScan.Misfits (c : Catalog) (bindings : Bindings) (scan : IndexScan) :
    BindingFault → Prop where
  | unbound (required : scan.required = true) (free : bindings.get? scan.bindingKey = none) :
    Misfits c bindings scan (.unbound scan.rowType.name scan.bindingKey)
  | value {value : Value} (bound : bindings.get? scan.bindingKey = some (.value value)) :
    Misfits c bindings scan (.shape scan.bindingKey .value .range)
  | wide {range : IndexRange} {id : IndexId} {i : Index}
    (bound : bindings.get? scan.bindingKey = some (.range range))
    (isIndex : scan.rowType.indexId? = some id) (found : c.index? id = some i)
    (wide : i.columns.length < range.width) :
    Misfits c bindings scan
      (.tooWide scan.bindingKey range.width scan.rowType.name i.columns.length)

/-- The bindings do not suit one of the scans of a plan. -/
def Plan.Misfits (c : Catalog) (bindings : Bindings) (plan : Plan) (fault : BindingFault) : Prop :=
  ∃ scan ∈ plan.indexScans, scan.Misfits c bindings fault

/-- The row type of an index that belongs to the catalog is that of the index. -/
theorem Catalog.Types.indexType?_eq {c : Catalog} {type : RowType} (types : c.Types type)
    (fit : c.IndexesFit) {id : IndexId} (isIndex : type.indexId? = some id) :
    c.indexType? id = some type := by
  cases types with
  | table found =>
    obtain ⟨t, _, rfl⟩ := Option.map_eq_some_iff.1 found
    cases isIndex
  | @index id' _ found =>
    obtain ⟨i, known, rest⟩ := Option.bind_eq_some_iff.1 found
    obtain ⟨t, on, same⟩ := Option.bind_eq_some_iff.1 rest
    obtain rfl := Option.some.inj same
    obtain rfl : i.id = id := Option.some.inj isIndex
    rwa [(fit.index?_eq_some known).2]
  | flattened upper lower => cases isIndex

namespace Pipeline

theorem Scan.resolveRange_cases {c : Catalog} {scan : IndexScan} {id : IndexId} {i : Index}
    (isIndex : scan.rowType.indexId? = some id) (found : c.index? id = some i)
    (columns : scan.rowType.columnCount = i.columns.length) (bindings : Bindings) :
    (∃ fault, resolveRange scan bindings = .error (.binding fault) ∧ scan.Misfits c bindings fault) ∨
      ∃ range, resolveRange scan bindings = .ok range ∧ range.width ≤ i.columns.length := by
  cases bound : bindings.get? scan.bindingKey with
  | none =>
    cases required : scan.required with
    | true =>
      refine .inl ⟨_, ?_, .unbound required bound⟩
      simp only [resolveRange, Bindings.range?, bound, required, if_true]
    | false =>
      refine .inr ⟨.unbounded, ?_, Nat.zero_le _⟩
      simp only [resolveRange, Bindings.range?, bound, required, Bool.false_eq_true, if_false]
  | some binding =>
    cases binding with
    | value value =>
      refine .inl ⟨_, ?_, .value bound⟩
      simp only [resolveRange, Bindings.range?, bound]
      rfl
    | range range =>
      by_cases wide : i.columns.length < range.width
      · refine .inl ⟨_, ?_, .wide bound isIndex found wide⟩
        simp only [resolveRange, Bindings.range?, bound, columns, if_pos wide]
      · refine .inr ⟨range, ?_, Nat.not_lt.1 wide⟩
        simp only [resolveRange, Bindings.range?, bound, columns, if_neg wide]

end Pipeline

namespace Store

variable {s : Store} {t : Table} {g : Group} {key : RowKey} {values : List Value}

theorem HasRow.stored (row : s.HasRow t key values) (found : s.catalog.group? t.group = some g) :
    s.Stored g key (StoredRow.row ⟨t, key, values⟩) := by
  obtain ⟨known, ⟨g', body, found', entry, decoded⟩, readable, last⟩ := row
  obtain rfl := Option.some.inj (found'.symm.trans found)
  refine ⟨body, t, values, entry, readable, ?_, decoded, rfl⟩
  rw [last, Option.bind_some, known]

/-- A row that stands under a key in the contents of a group is one of the rows of the store. -/
theorem Holds.hasRow_of_stored {rows : Set StoredRow} (holds : s.Holds rows)
    (inCatalog : g ∈ s.catalog.groups) {row : Row} (stored : s.Stored g key row) :
    ∃ t values, s.HasRow t key values ∧ t.group = g.id ∧ row = StoredRow.row ⟨t, key, values⟩ := by
  have legible := stored.legible
  obtain ⟨body, t, values, found, _, table, decoded, rfl⟩ := stored
  obtain ⟨t', key', values', group, bytes, decoded', row⟩ := holds.grouped inCatalog found
  have legible' := (RowKey.ofBytes_eq_ok_iff.1 row.readable).2
  obtain rfl := legible'.bytes_inj legible bytes
  obtain rfl := Except.ok.inj (decoded.symm.trans decoded')
  rw [row.last, Option.bind_some, row.known] at table
  obtain rfl := Option.some.inj table
  exact ⟨t', values, row, group, rfl⟩

end Store

namespace Plan

variable {s : Store} {rows : Set StoredRow} {bindings : Bindings}

/-- The entries of a plan that reads an index are those of rows of the indexed table. -/
theorem MayGive.entry_key {plan : Plan} {row : Row} (gives : plan.MayGive s row)
    (fit : s.catalog.IndexesFit) (typed : ∀ type ∈ plan.rowTypes, s.catalog.Types type) {id : TableId}
    (indexed : plan.indexedTable? = some id) :
    ∃ t key values, s.catalog.table? id = some t ∧ s.HasRow t key values ∧ row.key = some key := by
  induction gives with
  | stored | passed | joined | lookedUp => cases indexed
  | @entry scan _ i t key values isIndex found on stored =>
    have type := (typed _ List.mem_cons_self).indexType?_eq fit isIndex
    obtain ⟨t', on', type', _⟩ := fit.indexType?_eq_some found
    have same : scan.rowType = i.rowType t' := Option.some.inj (type.symm.trans type')
    obtain rfl : scan.rowType.tableId = id := Option.some.inj indexed
    refine ⟨t, key, values, ?_, stored, rfl⟩
    rwa [same]
  | selected _ ih => exact ih (fun type member => typed type (List.mem_cons_of_mem _ member)) indexed

section Serves

variable (holds : s.Holds rows) (batches : 1 ≤ s.batchSize) (fit : s.catalog.IndexesFit)
include holds batches

theorem groupScan_serves {group : GroupId} {g : Group} (found : s.catalog.group? group = some g)
    {Misfit : BindingFault → Prop} {Fault : QueryError → Prop} :
    Serves (Pipeline.GroupScan.machine group) s bindings Pipeline.Scan.Stands Misfit
      (MayGive s (.groupScan group)) Fault (Pipeline.Scan.Going s (MayGive s (.groupScan group))) := by
  obtain ⟨inCatalog, rfl⟩ := holds.forest.group?_eq_some found
  obtain ⟨stored, t, opened, yields, _, members⟩ := holds.traverseGroup batches inCatalog
  have gives : ∀ row ∈ stored.map StoredRow.row, MayGive s (.groupScan g.id) row := by
    refine List.forall_mem_map.2 fun r member => ?_
    obtain ⟨member, group⟩ := (members r).1 member
    exact .stored (holds.hasRow_iff.2 member) group
  exact Pipeline.Scan.serves (.inr ⟨t, _, opened, yields, gives⟩)

include fit in
theorem indexScan_serves {scan : IndexScan} {id : IndexId} {i : Index}
    (isIndex : scan.rowType.indexId? = some id) (found : s.catalog.index? id = some i)
    (types : s.catalog.Types scan.rowType) {Fault : QueryError → Prop} :
    Serves (Pipeline.IndexScan.machine scan) s bindings Pipeline.Scan.Stands
      (Misfits s.catalog bindings (.indexScan scan)) (MayGive s (.indexScan scan)) Fault
      (Pipeline.Scan.Going s (MayGive s (.indexScan scan))) := by
  obtain ⟨t', _, type, columns⟩ := fit.indexType?_eq_some found
  have same : scan.rowType = i.rowType t' :=
    Option.some.inj ((types.indexType?_eq fit isIndex).symm.trans type)
  have traversed := Pipeline.Scan.traverseRange_eq isIndex s bindings
  rcases Pipeline.Scan.resolveRange_cases isIndex found (same ▸ columns) bindings with
    ⟨fault, refused, misfits⟩ | ⟨range, resolved, fits⟩
  · rw [refused] at traversed
    exact Pipeline.Scan.serves (.inl ⟨fault, traversed, scan, List.mem_cons_self, misfits⟩)
  · obtain ⟨t, on, stored, traversal, opened, yields, _, members⟩ :=
      holds.traverseIndex batches fit found fits
    have gives : ∀ row ∈ stored.map (i.row t), MayGive s (.indexScan scan) row := by
      refine List.forall_mem_map.2 fun r member => ?_
      obtain ⟨member, rfl, _⟩ := (members r).1 member
      exact .entry isIndex found on (holds.hasRow_iff.2 member)
    rw [resolved, Except.bind, opened] at traversed
    exact Pipeline.Scan.serves (.inr ⟨traversal, _, traversed, yields, gives⟩)

omit batches in
/-- A lookup may give the rows that stand in the contents of its group. -/
theorem mayGive_of_stored {g : Group} (inCatalog : g ∈ s.catalog.groups) {group : GroupId}
    (number : group = g.id) {ancestors : List RowType} {scope : LookupScope} {input : Plan}
    {keys : List RowKey} {found : List Row} (stored : List.Forall₂ (s.Stored g) keys found) :
    ∀ row ∈ found, MayGive s (.indexLookup group ancestors scope input) row := by
  induction stored with
  | nil => exact nofun
  | cons first _ ih =>
    obtain ⟨t, values, row, inside, rfl⟩ := holds.hasRow_of_stored inCatalog first
    exact List.forall_mem_cons.2 ⟨.lookedUp row (inside.trans number.symm), ih⟩

include fit in
/-- An entry of an accepted lookup expands to stored rows, or a wanted ancestor of its row is missing. -/
theorem expands_of_checked {group : GroupId} {ancestors : List RowType} {scope : LookupScope}
    {input : Plan} {tables : List TableId}
    (checked : checkLookup s.catalog group ancestors input = .ok tables)
    (typed : ∀ type ∈ input.rowTypes, s.catalog.Types type) {entry : Row}
    (gives : input.MayGive s entry) :
    ∃ k answers, entry.key = some k ∧ IndexLookup.Expands ⟨group, tables, scope⟩ s k answers ∧
      (∀ row, .ok row ∈ answers → MayGive s (.indexLookup group ancestors scope input) row) ∧
      ∀ e, .error e ∈ answers → MayFail s (.indexLookup group ancestors scope input) e := by
  have forest := holds.forest
  obtain ⟨id, t, indexed, known, inside, above, ordered⟩ := checkLookup_eq_ok checked
  obtain ⟨t', k, values, known', row, key⟩ := gives.entry_key fit typed indexed
  obtain rfl := Option.some.inj (known.symm.trans known')
  obtain ⟨inTables, rfl⟩ := forest.table?_eq_some known
  obtain ⟨g, inCatalog, found, _⟩ := forest.groupName_spec inTables
  have number : t.group = g.id := (forest.group?_eq_some found).2.symm
  have wellFormed := holds.wellFormed inCatalog
  have valid := holds.mirrors.valid _ (holds.hasRow_iff.1 row)
  have legible := (RowKey.ofBytes_eq_ok_iff.1 row.readable).2
  subst inside
  obtain ⟨answers, expansion, expands⟩ := @IndexLookup.exists_expansion s g forest inCatalog wellFormed
    holds.batches batches t inTables number ⟨t.group, tables, scope⟩ number
    (ancestors.map RowType.tableId) (List.forall_mem_map.2 above) ordered k valid.path legible
  refine ⟨k, answers, key, expands, ?_⟩
  cases expansion with
  | @missing gone first =>
    refine ⟨by simp, fun e member => ?_⟩
    obtain rfl : e = .rowNotFound gone := by simpa using member
    obtain ⟨before, after, split, _, absent⟩ := first
    have inChain : gone ∈ k.chain (ancestors.map RowType.tableId) := by simp [split]
    have strict : gone ≠ k := fun same => absent _ (same ▸ row.stored found)
    obtain ⟨higher, table, wanted, last⟩ := RowKey.mem_above_of_mem_chain inChain strict
    obtain ⟨type, asked, rfl⟩ := List.mem_map.1 wanted
    obtain ⟨d, _, rfl⟩ := RowKey.mem_above.1 higher
    refine .ancestor indexed row higher ⟨type, asked, last⟩ found ?_
    refine Option.eq_none_iff_forall_ne_some.2 fun body entry => ?_
    obtain ⟨row, stored⟩ := wellFormed.exists_stored (legible.truncate (d + 1)) entry
    exact absent row stored
  | @row rows asked chain =>
    refine ⟨fun row member => mayGive_of_stored holds inCatalog number chain row ?_, by simp⟩
    simpa using member
  | @branch rows below asked chain descendants =>
    obtain ⟨keys, stored, _⟩ := descendants
    refine ⟨fun row member => ?_, by simp⟩
    rcases List.mem_append.1 (show row ∈ rows ++ below by simpa using member) with upper | lower
    · exact mayGive_of_stored holds inCatalog number chain row upper
    · exact mayGive_of_stored holds inCatalog number stored row lower

variable (ends : s.TraversalsEnd)
include ends

omit holds batches in
/-- Where traversals end, there is a bound on the rows that a tree has left. -/
theorem exists_serves {p : Pipeline} {Misfit : BindingFault → Prop} {Good : Row → Prop}
    {Fault : QueryError → Prop} {Going : p.State → Prop}
    (serves : Serves p.machine s bindings p.Stands Misfit Good Fault Going) :
    ∃ Going, Serves p.machine s bindings p.Stands Misfit Good Fault Going ∧
      ∀ state, Going state → ∃ n, p.Left s state n :=
  ⟨_, serves.bounded (p.dwindles ends), fun _ going => going.2⟩

include fit in
/-- Every part of an accepted plan gives rows that it may give and fails as it may. -/
theorem serves {plan : Plan} {p : Pipeline} (built : plan.build s.catalog = .ok p)
    (typed : ∀ type ∈ plan.rowTypes, s.catalog.Types type) :
    ∃ Going, Serves p.machine s bindings p.Stands (plan.Misfits s.catalog bindings) (plan.MayGive s)
      (plan.MayFail s) Going ∧ ∀ state, Going state → ∃ n, p.Left s state n := by
  induction plan generalizing p with
  | groupScan group =>
    obtain ⟨g, found, rfl⟩ := build_groupScan_eq_ok built
    exact exists_serves ends (groupScan_serves holds batches found)
  | indexScan scan =>
    obtain ⟨id, i, isIndex, found, rfl⟩ := build_indexScan_eq_ok built
    exact exists_serves ends (indexScan_serves holds batches fit isIndex found (typed _ List.mem_cons_self))
  | select target predicate input ih =>
    obtain ⟨below, builtInput, rfl⟩ := build_select_eq_ok built
    obtain ⟨Going, serves, bounded⟩ :=
      ih builtInput fun type member => typed type (List.mem_cons_of_mem _ member)
    exact exists_serves ends (Pipeline.Select.serves serves (below.dwindles ends) (fun _ => .selected)
      (fun _ => .select) (fun _ _ => .predicate) bounded)
  | flatten parent child input ih =>
    obtain ⟨below, builtInput, rfl⟩ := build_flatten_eq_ok built
    obtain ⟨Going, serves, bounded⟩ := ih builtInput fun type member =>
      typed type (List.mem_cons_of_mem _ (List.mem_cons_of_mem _ member))
    exact exists_serves ends (Pipeline.Flatten.serves serves (below.dwindles ends) (fun _ => .passed)
      (fun _ => .flatten) (fun _ _ => .joined) bounded)
  | indexLookup group ancestors scope input ih =>
    obtain ⟨tables, below, checked, builtInput, rfl⟩ := build_indexLookup_eq_ok built
    have typedInput : ∀ type ∈ input.rowTypes, s.catalog.Types type :=
      fun type member => typed type (List.mem_append_right _ member)
    obtain ⟨Going, serves, _⟩ := ih builtInput typedInput
    exact exists_serves ends (IndexLookup.serves serves (fun _ => .indexLookup) fun entry gives =>
      expands_of_checked holds batches fit checked typedInput gives)

end Serves

end Plan

/-- What a tree that goes on collects are rows of its kind, and an error of its kind if it fails. -/
theorem Run.collect_of_serves {p : Pipeline} {store : Store} {bindings : Bindings}
    {Stands : Bool → p.State → Prop} {Misfit : BindingFault → Prop} {Good : Row → Prop}
    {Fault : QueryError → Prop} {Going : p.State → Prop}
    (serves : Serves p.machine store bindings Stands Misfit Good Fault Going)
    (counts : Pipeline.Dwindles p.machine store (p.Left store)) {s : p.State} (going : Going s)
    {n fuel : Nat} (left : p.Left store s n) (enough : n < fuel) {rows : List Row}
    {ending : Option QueryError} {r : Run}
    (collected : Run.collect store fuel ⟨p, s⟩ = (rows, ending, r)) :
    (∀ row ∈ rows, Good row) ∧ ∀ e, ending = some e → Fault e := by
  induction fuel generalizing s n rows with
  | zero => cases enough
  | succ fuel ih =>
    have took := serves.advance going
    rcases answered : p.machine.advance store s with ⟨e | _ | row, t⟩ <;> rw [answered] at took <;>
      simp only [Run.collect, Run.advance, answered] at collected
    · cases collected
      cases took with
      | failed fault => exact ⟨List.forall_mem_nil _, fun e same => Option.some.inj same ▸ fault⟩
    · cases collected
      exact ⟨List.forall_mem_nil _, fun e failed => absurd failed.symm (Option.some_ne_none e)⟩
    · rcases rest : Run.collect store fuel ⟨p, t⟩ with ⟨rows, ending, r⟩
      rw [rest] at collected
      cases collected
      cases took with
      | row good going =>
        obtain ⟨k, fewer, left⟩ := counts.advance left answered
        obtain ⟨others, fails⟩ := ih going left (by omega) rest
        exact ⟨List.forall_mem_cons.2 ⟨good, others⟩, fails⟩

namespace Execution

/-- A closed execution of an accepted plan, whatever was asked of it before, collects what it comes to when it
is opened and advanced to its end: rows that the plan may give; or it does not open, because of a binding,
and reads nothing; or it opens and fails as the plan may. -/
theorem collect_cases {declarations : List Declaration} {c : Catalog}
    (accepted : Catalog.ofDeclarations declarations = .ok c) (plain : c.Plain)
    (config : Storage.EngineConfig) (batchSize : Nat) (changes : List Change) {plan : Plan}
    (typed : ∀ type ∈ plan.rowTypes, c.Types type) {settings : Config} {first : Execution}
    (made : create c plan settings = .ok first) {store : Store}
    (reached : (Store.fresh c config batchSize).run changes = store) {calls : List Call} {e : Execution}
    (used : first.afterAll store calls = e) (closed : e.phase = .closed) :
    e.Replays store (e.collect store).1 ∧
    ((∃ rows, (e.collect store).1 = .ok rows ∧ ∀ row ∈ rows, plan.MayGive store row) ∨
      (∃ fault, (e.launch store).1 = .error (.binding fault) ∧
        (e.collect store).1 = .error (.binding fault) ∧ (e.collect store).2.counters = e.counters ∧
        plan.Misfits c e.bindings fault) ∨
      ∃ error, (e.launch store).1 = .ok () ∧ (e.collect store).1 = .error error ∧
        plan.MayFail store error) := by
  have forest := Catalog.forest_of_declarations accepted
  have fit := Catalog.indexesFit_of_declarations accepted
  obtain ⟨rows, keeps⟩ := Store.keeps_run forest plain config batchSize changes
  rw [reached] at keeps
  have batches : 1 ≤ store.batchSize := by
    rw [keeps.batchSize]
    exact Nat.le_max_right batchSize 1
  obtain rfl := keeps.catalog
  obtain ⟨p, built, runs⟩ := runs_create made
  obtain ⟨bindings, up, runs⟩ := runs.afterAll store calls
  rw [used] at runs
  obtain rfl : false = up := by rw [← runs.isOpen, closed]; rfl
  have ends := Store.traversalsEnd_of_plain plain batches keeps.holds.batches
  refine ⟨runs.replays ends, ?_⟩
  obtain ⟨s, config, produced, rfl, stands⟩ := runs
  obtain ⟨Going, serves, bounded⟩ :=
    @Plan.serves store rows bindings keeps.holds batches fit ends plan p built typed
  have opening := @launch_eq p store bindings s config produced stands
  have answer := @collect_eq_answer p store bindings s config produced stands
  rcases serves.launch stands with ⟨fault, failed, refused, misfits⟩ | ⟨opened, launched, going⟩
  · rw [refused] at opening answer
    refine .inr (.inl ⟨fault, congrArg Prod.fst opening, answer, ?_, misfits⟩)
    rw [collect, opening]
    calc p.machine.counters (p.machine.close failed).2
        _ = p.machine.counters failed := p.quiet.close failed
        _ = p.machine.counters (p.machine.launch store bindings s).2 := by rw [refused]
        _ = p.machine.counters s := p.quiet.launch store bindings s
  · rw [launched] at opening answer
    rcases drained : Run.drain ⟨p, opened⟩ store with ⟨found, ending, r⟩
    obtain ⟨n, left⟩ := bounded opened going
    have enough := Nat.lt_succ_of_le ((p.dwindles ends).ahead left)
    obtain ⟨gives, fails⟩ := Run.collect_of_serves serves (p.dwindles ends) going left enough drained
    simp only [drained] at answer
    cases ending with
    | none => exact .inl ⟨found, answer, gives⟩
    | some error => exact .inr (.inr ⟨error, congrArg Prod.fst opening, answer, fails error rfl⟩)

theorem collect_cases_shop : ∃ first e,
    create shop shopPlan .standard = .ok first ∧ (∀ type ∈ shopPlan.rowTypes, shop.Types type) ∧
      first.afterAll Store.shopBefore shopCalls = e ∧ e.phase = .closed ∧
      e.Replays Store.shopBefore (e.collect Store.shopBefore).1 ∧
      ((∃ rows, (e.collect Store.shopBefore).1 = .ok rows ∧
          ∀ row ∈ rows, shopPlan.MayGive Store.shopBefore row) ∨
        (∃ fault, (e.launch Store.shopBefore).1 = .error (.binding fault) ∧
          (e.collect Store.shopBefore).1 = .error (.binding fault) ∧
          (e.collect Store.shopBefore).2.counters = e.counters ∧
          shopPlan.Misfits shop e.bindings fault) ∨
        ∃ error, (e.launch Store.shopBefore).1 = .ok () ∧
          (e.collect Store.shopBefore).1 = .error error ∧
          shopPlan.MayFail Store.shopBefore error) := by
  obtain ⟨first, made⟩ : ∃ first, create shop shopPlan .standard = .ok first := ⟨_, rfl⟩
  have typed : ∀ type ∈ shopPlan.rowTypes, shop.Types type := by
    have customer : shop.Types shopCustomer.rowType := .table (show shop.tableType? ⟨1⟩ = _ by decide)
    have order : shop.Types shopOrder.rowType := .table (show shop.tableType? ⟨2⟩ = _ by decide)
    have entry : shop.Types Store.shopScan.rowType := .index (show shop.indexType? ⟨1⟩ = _ by decide)
    simpa [shopPlan, Plan.rowTypes] using ⟨customer, order, entry⟩
  obtain ⟨p, _, runs⟩ := runs_create made
  obtain ⟨up, opened⟩ :=
    (runs.bind Store.shopBefore (.operator 0) (.range (.atLeast ⟨[.text "b"], true⟩))).launch
      Store.shopBefore
  have again : Runs p _ false (first.afterAll Store.shopBefore shopCalls) :=
    (opened.next Store.shopBefore).close.bind Store.shopBefore (.operator 0)
      (.range (.atLeast ⟨[.text "c"], true⟩))
  have reached : (Store.fresh shop .standard 1).run
      (Store.shopChanges ++ [.insert ⟨1⟩ [.int 2, .text "c"]]) = Store.shopBefore := rfl
  exact ⟨first, _, made, typed, rfl, again.closed,
    collect_cases shop_accepted shop_plain .standard 1 _ typed made reached rfl again.closed⟩

end Execution

end Interleave
