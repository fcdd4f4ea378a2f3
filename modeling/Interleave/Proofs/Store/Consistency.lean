import Interleave.Proofs.Store.Runs

/-!
The keyspaces of a store agree. Where a store holds a set of rows, the entries of the groups are the rows,
each primary keyspace finds exactly the rows of its table, each index holds exactly one entry for each of
them, and a new row is refused as a duplicate exactly when its table has a row with the same key value.
-/

namespace Interleave

open Storage (ByteMap)
open Storage.Layout (IsPlain)

namespace Store

/-- Whether the group of a table holds, under a key, an entry that reads as a row of the table. -/
structure HasRow (s : Store) (t : Table) (key : RowKey) (values : List Value) : Prop where
  known : s.catalog.table? t.id = some t
  entry : ∃ g body, s.catalog.group? t.group = some g ∧
    s.contents.getIn? (groupSpace g.name) key.bytes = some body ∧
    Codec.Body.decodeRow body = .ok values
  readable : RowKey.ofBytes key.bytes = .ok key
  last : key.lastTable? = some t.id

/-- The rows that a store holds. -/
def rows (s : Store) : Set StoredRow := {r | s.HasRow r.table r.key r.values}

/-- Whether the groups, the primary keyspaces and the indexes of a store tell the same rows. -/
structure Consistent (s : Store) : Prop where
  grouped : ∀ g ∈ s.catalog.groups, ∀ bytes body,
    s.contents.getIn? (groupSpace g.name) bytes = some body →
    ∃ t key values, t.group = g.id ∧ key.bytes = bytes ∧ Codec.Body.decodeRow body = .ok values ∧
      s.HasRow t key values
  placed : ∀ t key values, s.HasRow t key values →
    values.length = t.columnCount ∧ key.segments.map (·.table) = (s.catalog.path t.id).map (·.id) ∧
      key.segments.getLast? = some (.of t.id (primaryKey t values))
  primary : ∀ t ∈ s.catalog.tables, ∀ form bytes,
    s.contents.getIn? (primarySpace t.name) form = some bytes ↔
      ∃ key values, s.HasRow t key values ∧ form = Codec.Sortable.encode (primaryKey t values) ∧
        bytes = key.bytes
  unique : ∀ t key values key' values', s.HasRow t key values → s.HasRow t key' values' →
    (primaryKey t values).canonical = (primaryKey t values').canonical →
      key = key' ∧ values = values'
  indexed : ∀ i ∈ s.catalog.indexes, ∀ t, s.catalog.table? i.table = some t → ∀ bytes value,
    s.contents.getIn? (indexSpace i.name) bytes = some value ↔
      value = [] ∧ ∃ key values, s.HasRow t key values ∧ bytes = indexKey i values key
  indexedOnce : ∀ i ∈ s.catalog.indexes, ∀ t, s.catalog.table? i.table = some t →
    ∀ key values key' values', s.HasRow t key values → s.HasRow t key' values' →
      indexKey i values key = indexKey i values' key' → key = key' ∧ values = values'
  refused : ∀ id t values body, s.catalog.table? id = some t → values.length = t.columnCount →
    Codec.Body.encodeRow values = .ok body →
      (s.insert id values = .error (.usage (.duplicateKey (primaryKey t values) t.name)) ↔
        ∃ key stored, s.HasRow t key stored ∧
          (primaryKey t stored).canonical = (primaryKey t values).canonical) ∧
      (s.insert id values = .error (.usage (.duplicateKey (primaryKey t values) t.name)) ∨
        ∃ key s', s.insert id values = .ok (key, s'))

namespace Holds

variable {s : Store} {rows : Set StoredRow} (holds : s.Holds rows)
include holds

/-- What reads as a row is a row. -/
theorem hasRow_iff {t : Table} {key : RowKey} {values : List Value} :
    s.HasRow t key values ↔ (⟨t, key, values⟩ : StoredRow) ∈ rows := by
  constructor
  · rintro ⟨known, ⟨g, body, found, stored, decoded⟩, readable, last⟩
    have inside := (holds.forest.table?_eq_some known).1
    have name : s.catalog.groupName t = g.name := by simp [Catalog.groupName, found]
    have plainSpace := holds.group_plain inside
    rw [name] at plainSpace
    obtain ⟨r, member, place⟩ :=
      (holds.mirrors.getIn?_iff holds.forest holds.plain plainSpace).1 stored
    obtain ⟨_, same⟩ := StoredRow.group_mem_places.1 place
    have valid := holds.mirrors.valid r member
    obtain ⟨bytes, rfl⟩ := Prod.mk.inj same
    rw [bytes, RowKey.ofBytes_bytes valid.written] at readable
    obtain rfl := Except.ok.inj readable
    rw [Codec.Body.decodeRow_encodeRow valid.encodable] at decoded
    obtain rfl := Except.ok.inj decoded
    rw [RowKey.lastTable?, valid.last] at last
    obtain rfl := holds.forest.id_inj valid.known inside (Option.some.inj last)
    exact member
  · intro member
    have valid := holds.mirrors.valid _ member
    obtain ⟨g, _, found, name⟩ := holds.forest.groupName_spec valid.known
    refine ⟨holds.forest.table?_id valid.known,
      ⟨g, _, found, ?_, Codec.Body.decodeRow_encodeRow valid.encodable⟩,
      RowKey.ofBytes_bytes valid.written, ?_⟩
    · have plainSpace := holds.group_plain valid.known
      have stored := (holds.mirrors.getIn?_iff holds.forest holds.plain plainSpace).2
        ⟨_, member, StoredRow.group_mem_places.2 ⟨rfl, rfl⟩⟩
      rwa [name] at stored
    · have last := valid.last
      simp only at last
      rw [RowKey.lastTable?, last]
      rfl

theorem rows_eq : s.rows = rows := Set.ext fun _ => holds.hasRow_iff

theorem grouped {g : Group} (inCatalog : g ∈ s.catalog.groups) {bytes body : Bytes}
    (stored : s.contents.getIn? (groupSpace g.name) bytes = some body) :
    ∃ t key values, t.group = g.id ∧ key.bytes = bytes ∧ Codec.Body.decodeRow body = .ok values ∧
      s.HasRow t key values := by
  have plainSpace : IsPlain (Keyspace.group g.name).name :=
    Keyspace.group_plain (holds.plain.groups g inCatalog)
  obtain ⟨r, member, place⟩ :=
    (holds.mirrors.getIn?_iff holds.forest holds.plain plainSpace).1 stored
  obtain ⟨group, same⟩ := StoredRow.group_mem_places.1 place
  obtain ⟨rfl, rfl⟩ := Prod.mk.inj same
  have valid := holds.mirrors.valid r member
  obtain ⟨g', inCatalog', found, name⟩ := holds.forest.groupName_spec valid.known
  obtain rfl := holds.forest.groupNames g inCatalog g' inCatalog' (group.trans name)
  exact ⟨r.table, r.key, r.values, (holds.forest.group?_eq_some found).2.symm, rfl,
    Codec.Body.decodeRow_encodeRow valid.encodable, holds.hasRow_iff.2 member⟩

theorem primary {t : Table} (known : t ∈ s.catalog.tables) (form bytes : Bytes) :
    s.contents.getIn? (primarySpace t.name) form = some bytes ↔
      ∃ key values, s.HasRow t key values ∧ form = Codec.Sortable.encode (primaryKey t values) ∧
        bytes = key.bytes := by
  have plainSpace : IsPlain (Keyspace.primary t.name).name :=
    Keyspace.primary_plain (holds.plain.tables t known)
  apply (holds.mirrors.getIn?_iff holds.forest holds.plain plainSpace).trans
  constructor
  · rintro ⟨r, member, place⟩
    obtain ⟨name, same⟩ := StoredRow.primary_mem_places.1 place
    obtain ⟨rfl, rfl⟩ := Prod.mk.inj same
    obtain rfl := holds.forest.tableNames t known _ (holds.mirrors.valid r member).known name
    exact ⟨r.key, r.values, holds.hasRow_iff.2 member, rfl, rfl⟩
  · rintro ⟨key, values, row, rfl, rfl⟩
    exact ⟨_, holds.hasRow_iff.1 row, StoredRow.primary_mem_places.2 ⟨rfl, rfl⟩⟩

theorem indexed {i : Index} (inCatalog : i ∈ s.catalog.indexes) {t : Table}
    (known : s.catalog.table? i.table = some t) (bytes value : Bytes) :
    s.contents.getIn? (indexSpace i.name) bytes = some value ↔
      value = [] ∧ ∃ key values, s.HasRow t key values ∧ bytes = indexKey i values key := by
  have plainSpace : IsPlain (Keyspace.index i.name).name :=
    Keyspace.index_plain (holds.plain.indexes i inCatalog)
  have ⟨inside, on⟩ := holds.forest.table?_eq_some known
  apply (holds.mirrors.getIn?_iff holds.forest holds.plain plainSpace).trans
  constructor
  · rintro ⟨r, member, place⟩
    obtain ⟨i', on', name, same⟩ := StoredRow.index_mem_places.1 place
    obtain ⟨rfl, rfl⟩ := Prod.mk.inj same
    obtain ⟨inCatalog', table⟩ := Catalog.mem_indexesOn.1 on'
    obtain rfl := holds.forest.index_eq inCatalog inCatalog' name.symm
    have valid := holds.mirrors.valid r member
    obtain rfl := holds.forest.id_inj valid.known inside (table.symm.trans on.symm)
    exact ⟨rfl, r.key, r.values, holds.hasRow_iff.2 member, rfl⟩
  · rintro ⟨rfl, key, values, row, rfl⟩
    exact ⟨_, holds.hasRow_iff.1 row, StoredRow.index_mem_places.2
      ⟨i, Catalog.mem_indexesOn.2 ⟨inCatalog, on.symm⟩, rfl, rfl⟩⟩

theorem unique {t : Table} {key key' : RowKey} {values values' : List Value}
    (row : s.HasRow t key values) (row' : s.HasRow t key' values')
    (same : (primaryKey t values).canonical = (primaryKey t values').canonical) :
    key = key' ∧ values = values' := by
  have segments :
      (⟨t, key, values⟩ : StoredRow).segment = (⟨t, key', values'⟩ : StoredRow).segment :=
    StoredRow.segment_inj.2 ⟨rfl, Codec.Sortable.encode_eq_iff.2 same⟩
  have rows :=
    holds.mirrors.distinct _ (holds.hasRow_iff.1 row) _ (holds.hasRow_iff.1 row') segments
  exact ⟨congrArg StoredRow.key rows, congrArg StoredRow.values rows⟩

theorem indexedOnce {t : Table} (i : Index) {key key' : RowKey} {values values' : List Value}
    (row : s.HasRow t key values) (row' : s.HasRow t key' values')
    (same : indexKey i values key = indexKey i values' key') :
    key = key' ∧ values = values' := by
  have member := holds.hasRow_iff.1 row
  have member' := holds.hasRow_iff.1 row'
  have tails := (Codec.Sortable.encodeAll_append_inj (by simp) same).2
  have segments :=
    (holds.mirrors.valid _ member).segment_eq_of_key (holds.mirrors.valid _ member') tails
  have rows := holds.mirrors.distinct _ member _ member' segments
  exact ⟨congrArg StoredRow.key rows, congrArg StoredRow.values rows⟩

theorem refused {id : TableId} {t : Table} {values : List Value} {body : Bytes}
    (known : s.catalog.table? id = some t) (counted : values.length = t.columnCount)
    (encodable : Codec.Body.encodeRow values = .ok body) :
    (s.insert id values = .error (.usage (.duplicateKey (primaryKey t values) t.name)) ↔
      ∃ key stored, s.HasRow t key stored ∧
        (primaryKey t stored).canonical = (primaryKey t values).canonical) ∧
    (s.insert id values = .error (.usage (.duplicateKey (primaryKey t values) t.name)) ∨
      ∃ key s', s.insert id values = .ok (key, s')) := by
  have taken : (∃ key stored, s.HasRow t key stored ∧
        (primaryKey t stored).canonical = (primaryKey t values).canonical) ↔
      ∃ r ∈ rows, r.segment = .of t.id (primaryKey t values) := by
    constructor
    · rintro ⟨key, stored, row, same⟩
      exact ⟨_, holds.hasRow_iff.1 row,
        congrArg (Segment.mk t.id) (Codec.Sortable.encode_eq_iff.2 same)⟩
    · rintro ⟨r, member, same⟩
      have inside := (holds.forest.table?_eq_some known).1
      obtain rfl := holds.forest.id_inj (holds.mirrors.valid r member).known inside
        (congrArg Segment.table same)
      exact ⟨r.key, r.values, holds.hasRow_iff.2 member,
        Codec.Sortable.encode_eq_iff.1 (congrArg Segment.value same)⟩
  rw [taken]
  by_cases duplicate : ∃ r ∈ rows, r.segment = .of t.id (primaryKey t values)
  · obtain ⟨r, member, same⟩ := duplicate
    have error := holds.insert_duplicate known counted member same
    exact ⟨⟨fun _ => ⟨r, member, same⟩, fun _ => error⟩, .inl error⟩
  · have fresh : ∀ r ∈ rows, r.segment ≠ .of t.id (primaryKey t values) :=
      fun r member same => duplicate ⟨r, member, same⟩
    obtain ⟨key, m, _, _, done, _⟩ := holds.insert_ok known counted fresh encodable
    refine ⟨⟨fun error => ?_, fun found => absurd found duplicate⟩, .inr ⟨key, _, done⟩⟩
    rw [done] at error
    cases error

theorem consistent : s.Consistent where
  grouped _ inCatalog _ _ stored := holds.grouped inCatalog stored
  placed _ _ _ row :=
    have valid := holds.mirrors.valid _ (holds.hasRow_iff.1 row)
    ⟨valid.counted, valid.path, valid.last⟩
  primary _ known := holds.primary known
  unique _ _ _ _ _ row row' := holds.unique row row'
  indexed _ inCatalog _ known := holds.indexed inCatalog known
  indexedOnce i _ _ _ _ _ _ _ := holds.indexedOnce i
  refused _ _ _ _ known counted := holds.refused known counted

end Holds

end Store

end Interleave
