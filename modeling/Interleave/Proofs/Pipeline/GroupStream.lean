import Interleave.Proofs.Pipeline.Production
import Interleave.Proofs.Store.Consistency
import Interleave.Proofs.Store.Traversals

/-!
The stream of a group. A scan of a group delivers each stored row of the group once, in the order of the
keys, whatever the sizes of batches are.
-/

namespace Interleave

open Pipeline
open Storage (Entry Bound)
open Storage.Layout (IsPlain)

/-- A list of what certain things look like is made from a list of these things, if they look different. -/
theorem exists_map_eq {α β : Type} {l : List β} {f : α → β} {P : α → Prop}
    (found : ∀ b, b ∈ l ↔ ∃ a, P a ∧ f a = b) (apart : ∀ a b, P a → P b → f a = f b → a = b) :
    ∃ l' : List α, l = l'.map f ∧ ∀ a, a ∈ l' ↔ P a := by
  choose back holds same using fun b : { b // b ∈ l } => (found b.1).1 b.2
  have whole : l = (l.attach.map back).map f := by
    rw [List.map_map, show f ∘ back = Subtype.val from funext same]
    exact (List.attach_map_subtype_val l).symm
  refine ⟨_, whole, fun a => ⟨fun member => ?_, fun has => ?_⟩⟩
  · obtain ⟨b, _, rfl⟩ := List.mem_map.1 member
    exact holds b
  · have inside : f a ∈ l := (found _).2 ⟨a, has, rfl⟩
    rw [← apart _ a (holds ⟨f a, inside⟩) has (same ⟨f a, inside⟩)]
    exact List.mem_map_of_mem (List.mem_attach l _)

namespace StoredRow

/-- A stored row as it goes through a pipeline. -/
def row (r : StoredRow) : Row := ⟨r.table.rowType, r.values, some r.key⟩

/-- The entry of a row in its group. -/
def entry (r : StoredRow) : Entry := (r.key.bytes, r.body)

end StoredRow

namespace Store.Holds

variable {s : Store} {rows : Set StoredRow} (holds : s.Holds rows)
include holds

theorem mem_group_iff {g : Group} (inCatalog : g ∈ s.catalog.groups) {e : Entry} :
    e ∈ s.contents.between (groupSpace g.name) .unbounded .unbounded ↔
      ∃ r ∈ rows, r.table.group = g.id ∧ r.entry = e := by
  have plainSpace : IsPlain (Keyspace.group g.name).name :=
    Keyspace.group_plain (holds.plain.groups g inCatalog)
  have stored : s.contents.getIn? (Keyspace.group g.name).name e.1 = some e.2 ↔
      ∃ r ∈ rows, (Keyspace.group g.name, e.1, e.2) ∈ r.places s.catalog :=
    holds.mirrors.getIn?_iff holds.forest holds.plain plainSpace
  rw [Storage.ByteMap.mem_between_iff]
  have open_ended : (Bound.unbounded.below e.1 = true ∧ Bound.unbounded.above e.1 = true) :=
    ⟨rfl, rfl⟩
  rw [and_iff_left open_ended]
  refine stored.trans (exists_congr fun r => and_congr_right fun member => ?_)
  have group : g.name = s.catalog.groupName r.table ↔ r.table.group = g.id := by
    obtain ⟨g', inCatalog', found, name⟩ :=
      holds.forest.groupName_spec (holds.mirrors.valid r member).known
    rw [name]
    constructor
    · intro same
      rw [holds.forest.groupNames g inCatalog g' inCatalog' same,
        (holds.forest.group?_eq_some found).2]
    · intro same
      rw [same, holds.forest.group?_id inCatalog] at found
      rw [Option.some.inj found]
  rw [StoredRow.group_mem_places, group]
  exact and_congr_right' eq_comm

/-- The entries of a group are its rows in the order of their keys. -/
theorem group_rows {g : Group} (inCatalog : g ∈ s.catalog.groups) : ∃ stored : List StoredRow,
    s.contents.between (groupSpace g.name) .unbounded .unbounded = stored.map StoredRow.entry ∧
      stored.Pairwise (fun a b => a.key.bytes < b.key.bytes) ∧
      ∀ r, r ∈ stored ↔ r ∈ rows ∧ r.table.group = g.id := by
  have sorted := s.contents.between_sorted (groupSpace g.name) .unbounded .unbounded
  have apart : ∀ r r' : StoredRow, r ∈ rows ∧ r.table.group = g.id →
      r' ∈ rows ∧ r'.table.group = g.id → r.entry = r'.entry → r = r' := by
    rintro r r' ⟨member, _⟩ ⟨member', _⟩ same
    have valid := holds.mirrors.valid
    exact holds.mirrors.distinct r member r' member'
      ((valid r member).segment_eq_of_key (valid r' member') (congrArg Prod.fst same))
  obtain ⟨stored, entries, members⟩ := exists_map_eq
    (fun e => (holds.mem_group_iff inCatalog).trans (exists_congr fun r => and_assoc.symm)) apart
  rw [entries, List.pairwise_map] at sorted
  exact ⟨stored, entries, sorted, members⟩

end Store.Holds

/-- A stored row is what its entry shows. -/
theorem StoredRow.Valid.shows {s : Store} (forest : s.catalog.Forest) {r : StoredRow}
    (valid : r.Valid s.catalog) : Traversal.Shows s .row r.entry r.row := by
  refine ⟨[], r.key.bytes, r.key, rfl, RowKey.ofBytes_bytes valid.written,
    fun t rows key _ current => ?_⟩
  have table : r.key.lastTable? = some r.table.id := by
    rw [RowKey.lastTable?, valid.last]
    rfl
  have type : s.catalog.tableType? r.table.id = some r.table.rowType := by
    rw [Catalog.tableType?, forest.table?_id valid.known]
    rfl
  have decoded : Codec.Body.decodeRow r.entry.2 = .ok r.values :=
    Codec.Body.decodeRow_encodeRow valid.encodable
  simp only [Traversal.currentRow, current, rows, key, table, type, decoded]
  rfl

theorem Store.traverseGroup_eq {s : Store} {id : GroupId} {g : Group} (found : s.catalog.group? id = some g) :
    s.traverseGroup id = .ok (.between s (groupSpace g.name) .row (some (.unbounded, .unbounded))) := by
  simp only [traverseGroup, group, found, Except.map]

/-- A traversal of a group stands on its stored rows one after another. -/
theorem Store.Holds.traverseGroup {s : Store} {rows : Set StoredRow} (holds : s.Holds rows)
    (batches : 1 ≤ s.batchSize) {g : Group} (inCatalog : g ∈ s.catalog.groups) :
    ∃ (stored : List StoredRow) (t : Traversal), s.traverseGroup g.id = .ok t ∧
      t.Yields s (stored.map StoredRow.row) ∧
      stored.Pairwise (fun a b => a.key.bytes < b.key.bytes) ∧
      ∀ r, r ∈ stored ↔ r ∈ rows ∧ r.table.group = g.id := by
  obtain ⟨stored, entries, sorted, members⟩ := holds.group_rows inCatalog
  have opened := Store.traverseGroup_eq (holds.forest.group?_id inCatalog)
  have plain : IsPlain (Store.groupSpace g.name) :=
    Keyspace.group_plain (holds.plain.groups g inCatalog)
  have reads := Traversal.reads_between plain batches .row (some (.unbounded, .unbounded))
  rw [Traversal.within, entries] at reads
  have shows : List.Forall₂ (Traversal.Shows s .row) (stored.map StoredRow.entry)
      (stored.map StoredRow.row) := by
    rw [List.forall₂_map_left_iff, List.forall₂_map_right_iff, List.forall₂_same]
    exact fun r member => (holds.mirrors.valid r ((members r).1 member).1).shows holds.forest
  exact ⟨stored, _, opened, reads.yields holds.batches rfl shows, sorted, members⟩

namespace Pipeline

/-- A running scan lets out the rows of its traversal. -/
theorem Scan.produces {store : Store} {name label : String}
    {traversed : Store → Bindings → Except QueryError Traversal} {t : Traversal} {rows : List Row}
    (yields : t.Yields store rows) {s : Scan.State} (running : s.progress.phase = .running)
    (traversal : s.traversal = some t) : Produces (traversing name label traversed) store s rows := by
  induction yields generalizing s with
  | @done t t' ended =>
    have step : (traversing name label traversed).advance store s = (.ok none,
        { s with
          progress := Progress.exhaust { s.progress with current := none }
          traversal := some t' }) := by
      simp only [traversing, Scan.advance, Progress.begin_running running, Scan.pull, traversal, ended]
    exact .done step
  | @more t t' row rows next stands ahead others ih =>
    have step : (traversing name label traversed).advance store s = (.ok (some row),
        ⟨Progress.emit { s.progress with current := none } row, some t', s.read + 1⟩) := by
      simp only [traversing, Scan.advance, Progress.begin_running running, Scan.pull, traversal, next, stands]
    have enough : rows.length < (traversing name label traversed).ahead store s := by
      simp only [traversing, Scan.ahead, traversal]
      exact ahead
    exact .more step enough (ih running rfl)

/-- A scan delivers the rows of the traversal that it finds. -/
theorem Scan.delivers {store : Store} {bindings : Bindings} {name label : String}
    {traversed : Store → Bindings → Except QueryError Traversal} {t : Traversal} {rows : List Row}
    (found : traversed store bindings = .ok t) (yields : t.Yields store rows) :
    Delivers (traversing name label traversed) store bindings rows := by
  have opened : launch name (traversed store bindings) fresh = (.ok (), openOn fresh t) := launch_ok rfl found
  exact ⟨rfl, _, opened, Scan.produces yields rfl rfl⟩

namespace GroupScan

/-- A scan of a group delivers its stored rows. -/
theorem delivers {rows : Set StoredRow} (holds : store.Holds rows) (batches : 1 ≤ store.batchSize)
    {group : Group} (inCatalog : group ∈ store.catalog.groups) (bindings : Bindings) :
    ∃ stored : List StoredRow,
      Delivers (machine group.id) store bindings (stored.map StoredRow.row) ∧
      stored.Pairwise (fun a b => a.key.bytes < b.key.bytes) ∧
      ∀ r, r ∈ stored ↔ r ∈ rows ∧ r.table.group = group.id := by
  obtain ⟨stored, t, opened, yields, sorted, members⟩ := holds.traverseGroup batches inCatalog
  exact ⟨stored, Scan.delivers opened yields, sorted, members⟩

end GroupScan

end Pipeline

end Interleave
