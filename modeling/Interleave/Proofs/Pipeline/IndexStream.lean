import Interleave.Proofs.Catalog.Indexes
import Interleave.Proofs.Key.IndexRanges
import Interleave.Proofs.Pipeline.GroupStream

/-!
The stream of an index. A scan of an index in a range delivers an entry for each stored row whose tuple
the range admits, by tuples and then by row keys, whatever the sizes of batches are.
-/

namespace Interleave

open Pipeline
open Storage (Entry Bound)
open Storage.Layout (IsPlain)
open Codec.Sortable (encodeAll)

namespace Index

/-- The values of the indexed columns of a row. -/
def tuple (i : Index) (values : List Value) : List Value :=
  i.columns.map fun column => (values[column]?).getD .null

theorem length_tuple (i : Index) (values : List Value) :
    (i.tuple values).length = i.columns.length :=
  List.length_map ..

/-- The row of an index for a stored row. -/
def row (i : Index) (t : Table) (r : StoredRow) : Row :=
  ⟨i.rowType t, (i.tuple r.values).map Value.canonical, some r.key⟩

/-- The entry of an index for a stored row. -/
def entry (i : Index) (r : StoredRow) : Entry := (Store.indexKey i r.values r.key, [])

/-- Entries of an index go by tuples and then by row keys. -/
theorem order_entry (i : Index) (r r' : StoredRow) :
    Bytes.order (i.entry r).1 (i.entry r').1 =
      (List.compareLex Value.keyOrder (i.tuple r.values) (i.tuple r'.values)).then
        (r.key.order r'.key) :=
  Codec.Sortable.order_encodeAll_append ((i.length_tuple _).trans (i.length_tuple _).symm) _ _

end Index

theorem Traversal.readColumns_encodeAll (vs : List Value) (rest : Bytes) :
    readColumns vs.length (encodeAll vs ++ rest) = (vs.map Value.canonical, .ok rest) := by
  induction vs with
  | nil => rfl
  | cons v vs ih =>
    rw [List.length_cons, readColumns, Codec.Sortable.encodeAll_cons, List.append_assoc,
      Codec.Sortable.read_encode]
    simp only [ih, List.map_cons]

theorem Index.shows {s : Store} {r : StoredRow} (written : r.key.IsWritten) (i : Index) (t : Table) :
    Traversal.Shows s (.index i.columns.length (i.rowType t)) (i.entry r) (i.row t r) := by
  have split := Traversal.readColumns_encodeAll (i.tuple r.values) r.key.bytes
  rw [i.length_tuple] at split
  refine ⟨(i.tuple r.values).map Value.canonical, r.key.bytes, r.key, split,
    RowKey.ofBytes_bytes written, fun position kind key values current => ?_⟩
  simp only [Traversal.currentRow, current, kind, key, values]
  rfl

namespace Store.Holds

variable {s : Store} {rows : Set StoredRow} (holds : s.Holds rows) {i : Index} {t : Table}
  (inCatalog : i ∈ s.catalog.indexes) (on : s.catalog.table? i.table = some t) {range : IndexRange}
  (fits : range.width ≤ i.columns.length)
include holds inCatalog on fits

theorem mem_index_iff {e : Entry} :
    e ∈ Traversal.within s (indexSpace i.name) range.keyBounds? ↔
      ∃ r, (r ∈ rows ∧ r.table = t ∧ range.Admits (i.tuple r.values)) ∧ i.entry r = e := by
  have stored := holds.indexed inCatalog on e.1 e.2
  have admitted (r : StoredRow) :=
    @IndexRange.keyBounds?_iff range (i.tuple r.values) (by rwa [i.length_tuple]) r.key.bytes
  rw [Traversal.mem_within_iff, stored]
  constructor
  · rintro ⟨⟨empty, key, values, row, same⟩, low, high, bounds, below, above⟩
    rw [same] at below above
    refine ⟨⟨t, key, values⟩, ⟨holds.hasRow_iff.1 row, rfl, ?_⟩, ?_⟩
    · exact (admitted ⟨t, key, values⟩).1 ⟨low, high, bounds, below, above⟩
    · exact Prod.ext same.symm empty.symm
  · rintro ⟨r, ⟨member, rfl, admits⟩, rfl⟩
    exact ⟨⟨rfl, r.key, r.values, holds.hasRow_iff.2 member, rfl⟩, (admitted r).2 admits⟩

/-- The entries of an index in a range are those of the rows whose tuples it admits. -/
theorem index_rows : ∃ stored : List StoredRow,
    Traversal.within s (indexSpace i.name) range.keyBounds? = stored.map i.entry ∧
      stored.Pairwise (fun a b =>
        (List.compareLex Value.keyOrder (i.tuple a.values) (i.tuple b.values)).then
          (a.key.order b.key) = .lt) ∧
      ∀ r, r ∈ stored ↔ r ∈ rows ∧ r.table = t ∧ range.Admits (i.tuple r.values) := by
  have apart : ∀ r r' : StoredRow, r ∈ rows ∧ r.table = t ∧ range.Admits (i.tuple r.values) →
      r' ∈ rows ∧ r'.table = t ∧ range.Admits (i.tuple r'.values) → i.entry r = i.entry r' →
        r = r' := by
    rintro ⟨t, key, values⟩ ⟨t', key', values'⟩ ⟨member, rfl, _⟩ ⟨member', rfl, _⟩ same
    obtain ⟨rfl, rfl⟩ := holds.indexedOnce i (holds.hasRow_iff.2 member)
      (holds.hasRow_iff.2 member') (congrArg Prod.fst same)
    rfl
  obtain ⟨stored, entries, members⟩ :=
    exists_map_eq (fun e => holds.mem_index_iff inCatalog on fits) apart
  have sorted := Traversal.within_sorted (s := s) (indexSpace i.name) range.keyBounds?
  rw [entries, List.pairwise_map] at sorted
  refine ⟨stored, entries, sorted.imp fun {a b} less => ?_, members⟩
  rw [← i.order_entry]
  exact Bytes.order_eq_lt_iff.2 less

end Store.Holds

theorem Store.traverseIndex_eq {s : Store} {id : IndexId} {i : Index} {type : RowType}
    (found : s.catalog.index? id = some i) (typed : s.catalog.indexType? id = some type) (range : IndexRange) :
    s.traverseIndex id range =
      .ok (.between s (indexSpace i.name) (.index i.columns.length type) range.keyBounds?) := by
  simp only [traverseIndex, found, typed]

/-- A traversal of an index in a range stands on the entries of the rows whose tuples the range admits. -/
theorem Store.Holds.traverseIndex {s : Store} {rows : Set StoredRow} (holds : s.Holds rows)
    (batches : 1 ≤ s.batchSize) (fit : s.catalog.IndexesFit) {id : IndexId} {i : Index}
    (found : s.catalog.index? id = some i) {range : IndexRange}
    (fits : range.width ≤ i.columns.length) :
    ∃ t, s.catalog.table? i.table = some t ∧
      ∃ (stored : List StoredRow) (traversal : Traversal),
        s.traverseIndex id range = .ok traversal ∧ traversal.Yields s (stored.map (i.row t)) ∧
        stored.Pairwise (fun a b =>
          (List.compareLex Value.keyOrder (i.tuple a.values) (i.tuple b.values)).then
            (a.key.order b.key) = .lt) ∧
        ∀ r, r ∈ stored ↔ r ∈ rows ∧ r.table = t ∧ range.Admits (i.tuple r.values) := by
  obtain ⟨inCatalog, _⟩ := fit.index?_eq_some found
  obtain ⟨t, on, type, _⟩ := fit.indexType?_eq_some found
  obtain ⟨stored, entries, sorted, members⟩ := holds.index_rows inCatalog on fits
  have opened := Store.traverseIndex_eq found type range
  have plain : IsPlain (Store.indexSpace i.name) :=
    Keyspace.index_plain (holds.plain.indexes i inCatalog)
  have reads := Traversal.reads_between plain batches (.index i.columns.length (i.rowType t))
    range.keyBounds?
  rw [entries] at reads
  have shows : List.Forall₂ (Traversal.Shows s (.index i.columns.length (i.rowType t)))
      (stored.map i.entry) (stored.map (i.row t)) := by
    rw [List.forall₂_map_left_iff, List.forall₂_map_right_iff, List.forall₂_same]
    exact fun r member => i.shows (holds.mirrors.valid r ((members r).1 member).1).written t
  exact ⟨t, on, stored, _, opened, reads.yields holds.batches (Traversal.kind_between ..) shows, sorted,
    members⟩

namespace Pipeline.IndexScan

/-- A scan of an index that is bound to a range delivers the rows of the index in the range. -/
theorem delivers {store : Store} {rows : Set StoredRow} (holds : store.Holds rows)
    (batches : 1 ≤ store.batchSize) (fit : store.catalog.IndexesFit) {id : IndexId} {i : Index}
    (found : store.catalog.index? id = some i) {scan : IndexScan}
    (typed : store.catalog.indexType? id = some scan.rowType) {range : IndexRange}
    (fits : range.width ≤ i.columns.length) {bindings : Bindings}
    (bound : bindings.range? scan.bindingKey = .ok (some range)) :
    ∃ t, store.catalog.table? i.table = some t ∧ ∃ stored : List StoredRow,
      Delivers (machine scan) store bindings (stored.map (i.row t)) ∧
      stored.Pairwise (fun a b =>
        (List.compareLex Value.keyOrder (i.tuple a.values) (i.tuple b.values)).then
          (a.key.order b.key) = .lt) ∧
      ∀ r, r ∈ stored ↔ r ∈ rows ∧ r.table = t ∧ range.Admits (i.tuple r.values) := by
  obtain ⟨_, number⟩ := fit.index?_eq_some found
  obtain ⟨t', on', type, columns⟩ := fit.indexType?_eq_some found
  obtain ⟨t, on, stored, traversal, opened, yields, sorted, members⟩ :=
    holds.traverseIndex batches fit found fits
  obtain rfl := Option.some.inj (on'.symm.trans on)
  have rowType : scan.rowType = i.rowType t' := Option.some.inj (typed.symm.trans type)
  have resolved : Scan.resolveRange scan bindings = .ok range := by
    have wide : ¬ scan.rowType.columnCount < range.width := by
      rw [rowType, columns]
      exact Nat.not_lt.2 fits
    simp only [Scan.resolveRange, bound, if_neg wide]
  have isIndex : scan.rowType.indexId? = some id := by
    rw [rowType, ← number]
    rfl
  have traversed : Scan.traverseRange scan store bindings = .ok traversal := by
    rw [Scan.traverseRange_eq isIndex, resolved]
    exact opened
  exact ⟨t', on, stored, Scan.delivers traversed yields, sorted, members⟩

end Pipeline.IndexScan

end Interleave
