import Mathlib.Data.List.TakeWhile
import Interleave.Proofs.Key.Legible
import Interleave.Proofs.Key.Preorder
import Interleave.Proofs.Pipeline.GroupStream

/-!
What a group holds, however it came there. The contents of a group are well-formed if each entry reads as
a row under its key. Main statements: a point lookup tells exactly whether there is a row under a key, and
a traversal of a branch stands on the rows of the branch in the order of their keys.
-/

namespace Interleave

open Storage (ByteMap Entry Bound Cursor)
open Storage.Layout (IsPlain encodeKey decodeKey? lowBound highBound)

namespace Storage

theorem Layout.isPlain_of_decodeKey? {table : String} {key : Bytes}
    (reads : decodeKey? (encodeKey table key) = some (table, key)) : IsPlain table := by
  unfold decodeKey? at reads
  split at reads
  · cases reads
  · split at reads
    · next name decoded =>
      obtain ⟨rfl, _⟩ := Prod.mk.inj (Option.some.inj reads)
      rw [IsPlain, Text.utf8_of_ofUtf8 decoded]
      intro inside
      simpa using List.mem_takeWhile_imp inside
    · cases reads

/-- A table without entries has none in any range. -/
theorem ByteMap.rangeIn_of_absent {m : ByteMap} {table : String}
    (absent : ∀ key, m.getIn? table key = none) (low high : Bound) (limit : Nat) :
    m.rangeIn table low high limit = [] := by
  have nothing : ((m.startingAt (lowBound table low)).takeWhile
      fun e => (highBound table high).above e.1) = [] := by
    rw [startingAt, dropWhile_eq_filter m.sorted, takeWhile_eq_filter (m.sorted.filter _),
      List.filter_filter]
    refine List.filter_eq_nil_iff.2 fun e member between => ?_
    rw [Bool.and_eq_true] at between
    obtain ⟨key, same⟩ := (Layout.firstKey_prefix_iff table e.1).1
      (Layout.firstKey_prefix_of_between between.2 between.1)
    have stored := (m.mem_entries_iff e.1 e.2).1 member
    rw [same] at stored
    exact Option.some_ne_none _ (stored.symm.trans (absent key))
  simp only [rangeIn, readBelow_eq_take, nothing, List.filterMap_nil, List.take_nil, ite_self]

/-- What is left after an erasure was there before. -/
theorem ByteMap.getIn?_of_eraseIn {m : ByteMap} {table : String} {gone key value : Bytes}
    (found : (m.eraseIn table gone).getIn? table key = some value) :
    m.getIn? table key = some value :=
  ((@get?_eraseAll [encodeKey table gone] m (encodeKey table key) value).1 found).2

end Storage

theorem Traversal.yields_of_absent {s : Store} {keyspace : String}
    (absent : ∀ key, s.contents.getIn? keyspace key = none) (batches : 1 ≤ s.batchSize)
    (kind : EntryKind) (low high : Bound) :
    (between s keyspace kind (some (low, high))).Yields s [] := by
  obtain ⟨count, size⟩ : ∃ count, s.batchSize = count + 1 := ⟨s.batchSize - 1, by omega⟩
  have batch : ((between s keyspace kind (some (low, high))).fill s).batch = [] := by
    simp [between, fill, size, Cursor.take, Cursor.between, Cursor.next, Cursor.seekFirst,
      Cursor.loadFrom, Cursor.current?, ByteMap.rangeIn_of_absent absent]
  have ended : (between s keyspace kind (some (low, high))).advance s =
      (.ok false, { (between s keyspace kind (some (low, high))).fill s with current := none }) := by
    have first : (between s keyspace kind (some (low, high))).batch.isEmpty &&
        (between s keyspace kind (some (low, high))).hasMore := rfl
    simp only [advance, first, if_true, batch]
  exact .done ended

namespace Store

/-- Whether a group holds a row under a key, whatever table the row belongs to. -/
def Stored (s : Store) (g : Group) (key : RowKey) (row : Row) : Prop :=
  ∃ body t values, s.contents.getIn? (groupSpace g.name) key.bytes = some body ∧
    RowKey.ofBytes key.bytes = .ok key ∧ key.lastTable?.bind s.catalog.table? = some t ∧
    Codec.Body.decodeRow body = .ok values ∧ row = ⟨t.rowType, values, some key⟩

/-- Whether each entry of a group reads as a row under its key. A key comes back from the shared key space
whole if the name of the group has no zero byte; under another name there may be no entries. -/
structure WellFormed (s : Store) (g : Group) : Prop where
  placed : ∀ bytes body, s.contents.getIn? (groupSpace g.name) bytes = some body →
    decodeKey? (encodeKey (groupSpace g.name) bytes) = some (groupSpace g.name, bytes)
  rows : ∀ bytes body, s.contents.getIn? (groupSpace g.name) bytes = some body →
    ∃ key row, key.bytes = bytes ∧ s.Stored g key row

/-- Whether a key is the first of certain keys that has no row. -/
def FirstMissing (s : Store) (g : Group) (keys : List RowKey) (gone : RowKey) : Prop :=
  ∃ before after, keys = before ++ gone :: after ∧ (∀ b ∈ before, ∃ row, s.Stored g b row) ∧
    ∀ row, ¬ s.Stored g gone row

/-- Whether certain rows are the rows below a key, in the order of their keys. -/
def RowsBelow (s : Store) (g : Group) (key : RowKey) (rows : List Row) : Prop :=
  ∃ keys, List.Forall₂ (s.Stored g) keys rows ∧ keys.Pairwise (fun a b => a.order b = .lt) ∧
    ∀ b, b ∈ keys ↔ key.isAbove b = true ∧ ∃ row, s.Stored g b row

variable {s : Store} {g : Group} {key : RowKey} {row : Row}

namespace FirstMissing

variable {keys : List RowKey} {gone : RowKey}

theorem head (absent : ∀ row, ¬ s.Stored g key row) : s.FirstMissing g (key :: keys) key :=
  ⟨[], keys, rfl, by simp, absent⟩

theorem cons (stored : ∃ row, s.Stored g key row) (missing : s.FirstMissing g keys gone) :
    s.FirstMissing g (key :: keys) gone := by
  obtain ⟨before, after, rfl, found, absent⟩ := missing
  exact ⟨key :: before, after, rfl, List.forall_mem_cons.2 ⟨stored, found⟩, absent⟩

theorem append (missing : s.FirstMissing g keys gone) (others : List RowKey) :
    s.FirstMissing g (keys ++ others) gone := by
  obtain ⟨before, after, rfl, found, absent⟩ := missing
  exact ⟨before, after ++ others, by simp, found, absent⟩

theorem last {rows : List Row} (stored : List.Forall₂ (s.Stored g) keys rows)
    (absent : ∀ row, ¬ s.Stored g key row) : s.FirstMissing g (keys ++ [key]) key := by
  induction stored with
  | nil => exact head absent
  | cons first _ ih => exact ih.cons ⟨_, first⟩

end FirstMissing

theorem Stored.legible (stored : s.Stored g key row) : key.IsLegible := by
  obtain ⟨_, _, _, _, readable, _⟩ := stored
  exact (RowKey.ofBytes_eq_ok_iff.1 readable).2

theorem Stored.row_key (stored : s.Stored g key row) : row.key = some key := by
  obtain ⟨_, _, _, _, _, _, _, rfl⟩ := stored
  rfl

/-- A key has one row at most. -/
theorem Stored.unique {row' : Row} (stored : s.Stored g key row) (stored' : s.Stored g key row') :
    row = row' := by
  obtain ⟨body, t, values, found, _, table, decoded, rfl⟩ := stored
  obtain ⟨body', t', values', found', _, table', decoded', rfl⟩ := stored'
  obtain rfl := Option.some.inj (found.symm.trans found')
  obtain rfl := Option.some.inj (table.symm.trans table')
  obtain rfl := Except.ok.inj (decoded.symm.trans decoded')
  rfl

/-- The row of a listed key is among the rows that are read for the keys. -/
theorem Stored.mem_of_forall₂ {keys : List RowKey} {rows : List Row} (stored : s.Stored g key row)
    (each : List.Forall₂ (s.Stored g) keys rows) (listed : key ∈ keys) : row ∈ rows := by
  induction each with
  | nil => cases listed
  | cons first _ ih =>
    rcases List.mem_cons.1 listed with rfl | listed
    · exact stored.unique first ▸ List.mem_cons_self
    · exact List.mem_cons_of_mem _ (ih listed)

/-- A stored row is what its entry shows. -/
theorem Stored.shows (stored : s.Stored g key row) : ∃ body,
    s.contents.getIn? (groupSpace g.name) key.bytes = some body ∧
      Traversal.Shows s .row (key.bytes, body) row := by
  obtain ⟨body, t, values, found, readable, table, decoded, rfl⟩ := stored
  refine ⟨body, found, [], key.bytes, key, rfl, readable, fun position rows same _ current => ?_⟩
  obtain ⟨last, ends, known⟩ := Option.bind_eq_some_iff.1 table
  have type : s.catalog.tableType? last = some t.rowType := by
    rw [Catalog.tableType?, known]
    rfl
  simp only [Traversal.currentRow, current, rows, same, ends, type, decoded]

namespace WellFormed

variable (wellFormed : s.WellFormed g)
include wellFormed

/-- A key that reads has an entry only if a row is stored under it. -/
theorem exists_stored (legible : key.IsLegible) {body : Bytes}
    (found : s.contents.getIn? (groupSpace g.name) key.bytes = some body) :
    ∃ row, s.Stored g key row := by
  obtain ⟨key', row, same, stored⟩ := wellFormed.rows _ _ found
  obtain rfl := stored.legible.bytes_inj legible same
  exact ⟨row, stored⟩

/-- Rows that are removed behind the back of the indexes leave the others as they are. -/
theorem of_removed {s' : Store} (same : s'.catalog = s.catalog)
    (fewer : ∀ bytes body, s'.contents.getIn? (groupSpace g.name) bytes = some body →
      s.contents.getIn? (groupSpace g.name) bytes = some body) : s'.WellFormed g where
  placed bytes body found := wellFormed.placed bytes body (fewer bytes body found)
  rows bytes body found := by
    obtain ⟨key, row, rfl, body', t, values, found', readable, table, decoded, rfl⟩ :=
      wellFormed.rows bytes body (fewer bytes body found)
    obtain rfl := Option.some.inj ((fewer _ _ found).symm.trans found')
    exact ⟨key, _, rfl, body, t, values, found, readable, same ▸ table, decoded, rfl⟩

theorem exists_rows {entries : List Entry}
    (found : ∀ e ∈ entries, s.contents.getIn? (groupSpace g.name) e.1 = some e.2) :
    ∃ keys rows, entries.map Prod.fst = keys.map RowKey.bytes ∧
      List.Forall₂ (s.Stored g) keys rows ∧
      List.Forall₂ (Traversal.Shows s .row) entries rows := by
  induction entries with
  | nil => exact ⟨[], [], rfl, .nil, .nil⟩
  | cons e entries ih =>
    obtain ⟨front, others⟩ := List.forall_mem_cons.1 found
    obtain ⟨keys, rows, bytes, stored, shows⟩ := ih others
    obtain ⟨key, row, same, first⟩ := wellFormed.rows _ _ front
    obtain ⟨body, found', shown⟩ := first.shows
    rw [same, Option.some.inj (found'.symm.trans (same ▸ front))] at shown
    refine ⟨key :: keys, row :: rows, ?_, .cons first stored, .cons shown shows⟩
    rw [List.map_cons, List.map_cons, bytes, same]

/-- A traversal between two ends stands on the rows whose keys lie between them, in the order of their keys. -/
theorem between (cursors : 1 ≤ s.engine.cursorBatch) (batches : 1 ≤ s.batchSize) (low high : Bound) :
    ∃ keys rows,
      (Traversal.between s (groupSpace g.name) .row (some (low, high))).Yields s rows ∧
      List.Forall₂ (s.Stored g) keys rows ∧ keys.Pairwise (fun a b => a.bytes < b.bytes) ∧
      ∀ b, b ∈ keys ↔ (low.below b.bytes = true ∧ high.above b.bytes = true) ∧
        ∃ row, s.Stored g b row := by
  by_cases absent : ∀ bytes, s.contents.getIn? (groupSpace g.name) bytes = none
  · refine ⟨[], [], Traversal.yields_of_absent absent batches _ _ _, .nil, .nil, fun b => ?_⟩
    refine iff_of_false List.not_mem_nil ?_
    rintro ⟨_, _, body, _, _, found, _⟩
    exact absurd (found.symm.trans (absent b.bytes)) (Option.some_ne_none body)
  obtain ⟨bytes, found⟩ := not_forall.1 absent
  obtain ⟨body, found⟩ := Option.ne_none_iff_exists'.1 found
  have plain := Storage.Layout.isPlain_of_decodeKey? (wellFormed.placed bytes body found)
  have reads := Traversal.reads_between plain batches .row (some (low, high))
  have sorted := Traversal.within_sorted (s := s) (groupSpace g.name) (some (low, high))
  have inside (e : Entry) : e ∈ Traversal.within s (groupSpace g.name) (some (low, high)) ↔
      s.contents.getIn? (groupSpace g.name) e.1 = some e.2 ∧
        low.below e.1 = true ∧ high.above e.1 = true := by
    rw [Traversal.within, ByteMap.mem_between_iff]
  generalize Traversal.within s (groupSpace g.name) (some (low, high)) = entries
    at reads sorted inside
  obtain ⟨keys, rows, same, stored, shows⟩ :=
    wellFormed.exists_rows fun e member => ((inside e).1 member).1
  have each : ∀ b ∈ keys, ∃ row, s.Stored g b row :=
    ((List.forall₂_and_left _ _).1 (stored.imp fun _ row here => ⟨⟨row, here⟩, here⟩)).1
  have ordered : (keys.map RowKey.bytes).Pairwise (· < ·) := same ▸ List.pairwise_map.2 sorted
  refine ⟨keys, rows, reads.yields cursors rfl shows, stored, List.pairwise_map.1 ordered,
    fun b => ⟨fun member => ?_, ?_⟩⟩
  · have here : b.bytes ∈ entries.map Prod.fst := same ▸ List.mem_map_of_mem member
    obtain ⟨e, taken, bytes⟩ := List.mem_map.1 here
    exact ⟨bytes ▸ ((inside e).1 taken).2, each b member⟩
  · rintro ⟨onward, row, row_stored⟩
    obtain ⟨body, found, _⟩ := row_stored.shows
    have taken : (b.bytes, body) ∈ entries := (inside _).2 ⟨found, onward⟩
    have here : b.bytes ∈ keys.map RowKey.bytes := same ▸ List.mem_map_of_mem taken
    obtain ⟨b', member, bytes⟩ := List.mem_map.1 here
    obtain ⟨_, stored'⟩ := each b' member
    exact stored'.legible.bytes_inj row_stored.legible bytes ▸ member

/-- A traversal of a branch stands on the rows whose keys go on from a key, in the order of their keys. -/
theorem branch (cursors : 1 ≤ s.engine.cursorBatch) (batches : 1 ≤ s.batchSize) (k : RowKey) :
    ∃ keys rows, (Traversal.between s (groupSpace g.name) .row
        (some (.included k.bytes, .pastExtensions k.bytes))).Yields s rows ∧
      List.Forall₂ (s.Stored g) keys rows ∧ keys.Pairwise (fun a b => a.bytes < b.bytes) ∧
      ∀ b, b ∈ keys ↔ k.bytes <+: b.bytes ∧ ∃ row, s.Stored g b row := by
  obtain ⟨keys, rows, yields, stored, sorted, members⟩ := wellFormed.between cursors batches
    (.included k.bytes) (.pastExtensions k.bytes)
  refine ⟨keys, rows, yields, stored, sorted, fun b => (members b).trans ?_⟩
  rw [Bound.between_extensions]

/-- A traversal of a branch stands on the row at its root first, if there is one, and then on the rows
below. -/
theorem branch_cases (cursors : 1 ≤ s.engine.cursorBatch) (batches : 1 ≤ s.batchSize)
    (legible : key.IsLegible) :
    (∃ row below, s.Stored g key row ∧ s.RowsBelow g key below ∧
      (Traversal.between s (groupSpace g.name) .row
        (some (.included key.bytes, .pastExtensions key.bytes))).Yields s (row :: below)) ∨
    ((∀ row, ¬ s.Stored g key row) ∧ ∃ rows : List Row, (∀ row ∈ rows, row.key ≠ some key) ∧
      (Traversal.between s (groupSpace g.name) .row
        (some (.included key.bytes, .pastExtensions key.bytes))).Yields s rows) := by
  obtain ⟨keys, rows, yields, stored, sorted, members⟩ := wellFormed.branch cursors batches key
  by_cases present : ∃ row, s.Stored g key row
  · have inside : key ∈ keys := (members key).2 ⟨List.prefix_rfl, present⟩
    cases stored with
    | nil => cases inside
    | @cons first row keys rows here others =>
      obtain ⟨less, sorted⟩ := List.pairwise_cons.1 sorted
      have onward := ((members first).1 List.mem_cons_self).1
      have root : first = key := (List.mem_cons.1 inside).elim Eq.symm fun later =>
        absurd (less key later) ((Bytes.prefix_iff_between _ _).1 onward).1
      subst root
      refine .inl ⟨row, rows, here, ⟨keys, others, sorted.imp Bytes.order_eq_lt_iff.2, fun b => ?_⟩,
        yields⟩
      rw [RowKey.isAbove_iff_prefix]
      constructor
      · intro member
        have ⟨onward, found⟩ := (members b).1 (List.mem_cons_of_mem _ member)
        exact ⟨⟨onward, fun same => List.lt_irrefl _ (same ▸ less b member)⟩, found⟩
      · rintro ⟨⟨onward, different⟩, found⟩
        refine (List.mem_cons.1 ((members b).2 ⟨onward, found⟩)).resolve_left ?_
        rintro rfl
        exact different rfl
  · refine .inr ⟨not_exists.1 present, rows, fun row member same => ?_, yields⟩
    have each : ∀ row ∈ rows, ∃ b, s.Stored g b row :=
      ((List.forall₂_and_left _ _).1 (stored.flip.imp fun _ b here => ⟨⟨b, here⟩, here⟩)).1
    obtain ⟨b, here⟩ := each row member
    obtain rfl := Option.some.inj (here.row_key.symm.trans same)
    exact present ⟨row, here⟩

/-- A point lookup under a key of the group finds the row that is stored, if there is one. -/
theorem lookup (forest : s.catalog.Forest) (inCatalog : g ∈ s.catalog.groups)
    (legible : key.IsLegible) {root last : Table} (first : key.tableAt? 0 = some root.id)
    (known : root ∈ s.catalog.tables) (group : root.group = g.id)
    (ends : key.lastTable? = some last.id) (known' : last ∈ s.catalog.tables) :
    (s.lookup key = .ok none ∧ ∀ row, ¬ s.Stored g key row) ∨
      ∃ row, s.lookup key = .ok (some row) ∧ s.Stored g key row := by
  have table : s.table root.id = .ok root := by
    simp only [Store.table, forest.table?_id known]
  have space : s.groupSpaceOf root = .ok (groupSpace g.name) := by
    simp only [groupSpaceOf, group, forest.group?_id inCatalog]
  have type : s.catalog.tableType? last.id = some last.rowType := by
    rw [Catalog.tableType?, forest.table?_id known']
    rfl
  cases found : s.contents.getIn? (groupSpace g.name) key.bytes with
  | none =>
    refine .inl ⟨?_, fun row stored => ?_⟩
    · simp only [Store.lookup, first, ends, table, space, type, found, bind, Except.bind]
      rfl
    · obtain ⟨body, _, _, found', _⟩ := stored
      exact Option.some_ne_none body (found'.symm.trans found)
  | some body =>
    obtain ⟨row, stored⟩ := wellFormed.exists_stored legible found
    refine .inr ⟨row, ?_, stored⟩
    obtain ⟨body', t, values, found', _, ends', decoded, rfl⟩ := stored
    rw [ends, Option.bind_some, forest.table?_id known'] at ends'
    obtain rfl := Option.some.inj ends'
    obtain rfl := Option.some.inj (found.symm.trans found')
    simp only [Store.lookup, first, ends, table, space, type, found, decoded,
      EncodingFault.lift, bind, Except.bind]
    rfl

end WellFormed

/-- Every store that holds rows is well-formed. -/
theorem Holds.wellFormed {rows : Set StoredRow} (holds : s.Holds rows)
    (inCatalog : g ∈ s.catalog.groups) : s.WellFormed g where
  placed bytes body _ :=
    Storage.Layout.decodeKey?_encodeKey (Keyspace.group_plain (holds.plain.groups g inCatalog)) bytes
  rows bytes body found := by
    obtain ⟨t, key, values, _, rfl, decoded, row⟩ := holds.grouped inCatalog found
    have table : key.lastTable?.bind s.catalog.table? = some t := by
      rw [row.last]
      exact row.known
    exact ⟨key, _, rfl, body, t, values, found, row.readable, table, decoded, rfl⟩

end Store

end Interleave
