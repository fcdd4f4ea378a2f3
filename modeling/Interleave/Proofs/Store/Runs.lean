import Interleave.Proofs.Store.Changes

/-!
Runs of insertions and deletions. A store that holds a set of rows answers every change as the rows say,
and holds the changed set afterwards.
-/

namespace Interleave

open Storage (ByteMap Entry Bound Cursor)
open Storage.Layout (encodeKey IsPlain)

namespace StoredRow

theorem shift_self {c : Catalog} {k : RowKey} {r : StoredRow} (valid : r.Valid c)
    (written : k.IsWritten) :
    r.shift k k = r := by
  unfold shift
  split
  · next below =>
    obtain ⟨rest, _, split⟩ := (RowKey.isAbove_iff_segments written valid.written).1 below
    have back : k.segments ++ r.key.segments.drop k.segments.length = r.key.segments := by
      rw [split, List.drop_left]
    rw [relocate, RowKey.rebase, back]
  · rfl

theorem Valid.follows {c : Catalog} {r : StoredRow} (valid : r.Valid c) : c.Follows r.table r.key :=
  valid.path

/-- A key that stands above a row is on the path of a table of the same group. -/
theorem Valid.group_of_isAbove {c : Catalog} (forest : c.Forest) {r : StoredRow}
    (valid : r.Valid c) {t : Table} {k : RowKey} (written : k.IsWritten) (known : t ∈ c.tables)
    (follows : c.Follows t k) (below : k.isAbove r.key = true) : t.group = r.table.group := by
  obtain ⟨rest, _, split⟩ := (RowKey.isAbove_iff_segments written valid.written).1 below
  have path := valid.path
  rw [split, List.map_append, follows, forest.path_getLast known] at path
  have inside : t.id ∈ (c.path r.table.id).map (·.id) := by
    rw [← path]
    simp
  obtain ⟨p, onPath, same⟩ := List.mem_map.1 inside
  obtain ⟨known', _, group⟩ := forest.mem_path r.table valid.known p onPath
  rw [← forest.id_inj known' known same, group]

end StoredRow

/-- The bytes that go on from a key which no row has belong to the rows below it. -/
theorem Mirrors.mem_extensions_iff {c : Catalog} (forest : c.Forest) (plain : c.Plain) {m : ByteMap}
    {rows : Set StoredRow} (mirrors : Mirrors c m rows) {t : Table} (known : t ∈ c.tables)
    {k : RowKey} (written : k.IsWritten) (free : ∀ r ∈ rows, r.key ≠ k) (e : Entry) :
    e ∈ m.between (Store.groupSpace (c.groupName t)) (.included k.bytes) (.pastExtensions k.bytes) ↔
      ∃ r ∈ rows, e = (r.key.bytes, r.body) ∧ k.isAbove r.key = true ∧
        Store.groupSpace (c.groupName t) = Store.groupSpace (c.groupName r.table) := by
  obtain ⟨key, value⟩ := e
  have inCatalog : IsPlain (Keyspace.group (c.groupName t)).name := by
    obtain ⟨g, member, _, name⟩ := forest.groupName_spec known
    rw [name]
    exact Keyspace.group_plain (plain.groups g member)
  rw [ByteMap.mem_between_iff, Bound.between_extensions]
  apply Iff.trans (and_congr_left' (mirrors.getIn?_iff forest plain inCatalog))
  constructor
  · rintro ⟨⟨r, member, place⟩, rest, whole⟩
    obtain ⟨group, same⟩ := StoredRow.group_mem_places.1 place
    obtain ⟨rfl, rfl⟩ := Prod.mk.inj same
    refine ⟨r, member, rfl, (RowKey.isAbove_iff ..).2 ⟨rest, ?_, whole.symm⟩,
      congrArg Store.groupSpace group⟩
    rintro rfl
    rw [List.append_nil] at whole
    exact free r member ((RowKey.bytes_inj written (mirrors.valid r member).written).1 whole).symm
  · rintro ⟨r, member, same, below, group⟩
    obtain ⟨rfl, rfl⟩ := Prod.mk.inj same
    obtain ⟨rest, _, whole⟩ := (RowKey.isAbove_iff ..).1 below
    have name := Keyspace.group.inj (Keyspace.name_inj.1 group)
    exact ⟨⟨r, member, StoredRow.group_mem_places.2 ⟨name, rfl⟩⟩, rest, whole.symm⟩

/-- Whether a store keeps exactly a set of rows, over a catalog with plain names. -/
structure Store.Holds (s : Store) (rows : Set StoredRow) : Prop where
  forest : s.catalog.Forest
  plain : s.catalog.Plain
  batches : 1 ≤ s.engine.cursorBatch
  mirrors : Mirrors s.catalog s.contents rows

/-- The rows after a row came in at its place. -/
def withRow (c : Catalog) (rows : Set StoredRow) (r : StoredRow) : Set StoredRow :=
  StoredRow.shift (Store.orphanKey c r.table.id r.own) r.key '' insert r rows

theorem mem_withRow_iff {c : Catalog} {rows : Set StoredRow} {n : StoredRow} {t : Table}
    {values : List Value} :
    (∃ k, ⟨t, k, values⟩ ∈ withRow c rows n) ↔
      (∃ k, ⟨t, k, values⟩ ∈ rows) ∨ (t = n.table ∧ values = n.values) := by
  have back (r : StoredRow) (member : r ∈ insert n rows) :
      ∃ k, ⟨r.table, k, r.values⟩ ∈ withRow c rows n :=
    ⟨_, r, member, StoredRow.shift_eq _ _ r⟩
  constructor
  · rintro ⟨k, r, member, same⟩
    have table : r.table = t := StoredRow.table_shift.symm.trans (congrArg StoredRow.table same)
    have values : r.values = values :=
      StoredRow.values_shift.symm.trans (congrArg StoredRow.values same)
    subst table values
    rcases member with rfl | member
    · exact .inr ⟨rfl, rfl⟩
    · exact .inl ⟨r.key, member⟩
  · rintro (⟨k, member⟩ | ⟨rfl, rfl⟩)
    · exact back _ (Set.mem_insert_of_mem _ member)
    · exact back _ (Set.mem_insert _ _)

namespace Store.Holds

variable {s : Store} {rows : Set StoredRow}

theorem group_plain (holds : s.Holds rows) {t : Table} (known : t ∈ s.catalog.tables) :
    IsPlain (Keyspace.group (s.catalog.groupName t)).name := by
  obtain ⟨g, inCatalog, _, name⟩ := holds.forest.groupName_spec known
  rw [name]
  exact Keyspace.group_plain (holds.plain.groups g inCatalog)

section Adoption

variable (holds : s.Holds rows) {m : ByteMap} {rows' : Set StoredRow}
  (mirrors : Mirrors s.catalog m rows') {r : StoredRow} (member : r ∈ rows')
include holds mirrors member

/-- No row has the key that keeps the place of a row that is elsewhere. -/
theorem key_ne_orphanKey (home : orphanKey s.catalog r.table.id r.own ≠ r.key) :
    ∀ r' ∈ rows', r'.key ≠ orphanKey s.catalog r.table.id r.own := by
  intro r' member' same
  have valid := mirrors.valid r member
  have last := (mirrors.valid r' member').last
  rw [same, segments_orphanKey holds.forest valid.known, List.getLast?_concat] at last
  exact home (mirrors.distinct r member r' member' (Option.some.inj last) ▸ same.symm)

/-- The rows below the key that keeps the place of a row are those whose entries go on from it. -/
theorem image_shift_eq {entries : List Entry}
    (found : ∀ e, e ∈ entries ↔ ∃ r' ∈ rows', e = (r'.key.bytes, r'.body) ∧
      (orphanKey s.catalog r.table.id r.own).isAbove r'.key = true ∧
      groupSpace (s.catalog.groupName r.table) = groupSpace (s.catalog.groupName r'.table)) :
    StoredRow.shift (orphanKey s.catalog r.table.id r.own) r.key '' rows' =
      Mirrors.moved (orphanKey s.catalog r.table.id r.own) r.key (entries.map (·.1)) '' rows' := by
  have forest := holds.forest
  have valid := mirrors.valid r member
  refine Set.image_congr fun r' member' => ?_
  have valid' := mirrors.valid r' member'
  have waits : r'.key.bytes ∈ entries.map (·.1) ↔
      (orphanKey s.catalog r.table.id r.own).isAbove r'.key = true := by
    rw [List.mem_map]
    constructor
    · rintro ⟨e, inside, key⟩
      obtain ⟨r₁, member₁, rfl, below, _⟩ := (found e).1 inside
      rwa [(RowKey.bytes_inj (mirrors.valid r₁ member₁).written valid'.written).1 key] at below
    · intro below
      have group := valid'.group_of_isAbove forest (isWritten_orphanKey r.own) valid.known
        (follows_orphanKey forest valid.known r.own) below
      have name : s.catalog.groupName r.table = s.catalog.groupName r'.table := by
        rw [Catalog.groupName, group, Catalog.groupName]
      exact ⟨_, (found _).2 ⟨r', member', rfl, below, congrArg groupSpace name⟩, rfl⟩
  exact if_congr waits.symm rfl rfl

/-- The rows that waited for a stored row go below it. -/
theorem adopt :
    ∃ m', s.adoptOrphans (groupSpace (s.catalog.groupName r.table)) m r.table r.own r.key = .ok m' ∧
      Mirrors s.catalog m'
        (StoredRow.shift (orphanKey s.catalog r.table.id r.own) r.key '' rows') := by
  have forest := holds.forest
  have plain := holds.plain
  have valid := mirrors.valid r member
  have written : (orphanKey s.catalog r.table.id r.own).IsWritten := isWritten_orphanKey r.own
  unfold adoptOrphans
  by_cases home : orphanKey s.catalog r.table.id r.own = r.key
  · have still : StoredRow.shift (orphanKey s.catalog r.table.id r.own) r.key '' rows' = rows' := by
      rw [home]
      refine (Set.image_congr fun r' member' => ?_).trans (Set.image_id rows')
      exact StoredRow.shift_self (mirrors.valid r' member') valid.written
    rw [still]
    exact ⟨m, if_pos home, mirrors⟩
  · have found := mirrors.mem_extensions_iff forest plain valid.known written
      (holds.key_ne_orphanKey mirrors member home)
    have shifted := holds.image_shift_eq mirrors member found
    have sorted := m.between_sorted (groupSpace (s.catalog.groupName r.table))
      (.included (orphanKey s.catalog r.table.id r.own).bytes)
      (.pastExtensions (orphanKey s.catalog r.table.id r.own).bytes)
    have path := (follows_orphanKey forest valid.known r.own).trans valid.path.symm
    have plainSpace : IsPlain (groupSpace (s.catalog.groupName r.table)) :=
      holds.group_plain valid.known
    have drained := Cursor.drain_between m (.included (orphanKey s.catalog r.table.id r.own).bytes)
      (.pastExtensions (orphanKey s.catalog r.table.id r.own).bytes) holds.batches plainSpace
    simp only [if_neg home, drained]
    rw [shifted]
    generalize m.between _ _ _ = entries at found sorted ⊢
    have start : Mirrors s.catalog m
        (Mirrors.moved (orphanKey s.catalog r.table.id r.own) r.key [] '' rows') := by
      rwa [Mirrors.image_moved_nil]
    have once : (([] : List Bytes) ++ entries.map (·.1)).Nodup := by
      rw [List.nil_append, List.nodup_iff_pairwise_ne, List.pairwise_map]
      exact sorted.imp fun {a b} less (same : a.1 = b.1) => List.lt_irrefl b.1 (same ▸ less)
    obtain ⟨m', moved, mirrors'⟩ := Mirrors.moveAll forest plain written valid.written path mirrors.valid
      mirrors.distinct start (fun e inside => (found e).1 inside) once
    exact ⟨m', by rw [moved, EncodingFault.lift], mirrors'⟩

end Adoption

theorem groupSpaceOf_eq (holds : s.Holds rows) {t : Table} (known : t ∈ s.catalog.tables) :
    s.groupSpaceOf t = .ok (groupSpace (s.catalog.groupName t)) := by
  obtain ⟨g, _, found, name⟩ := holds.forest.groupName_spec known
  rw [groupSpaceOf, found, name]

section Insert

variable {id : TableId} {t : Table} {values : List Value}

theorem insert_unknown (absent : s.catalog.table? id = none) :
    s.insert id values = .error (.usage (.unknownTable id)) := by
  simp only [Store.insert, Store.table, absent, bind, Except.bind]

theorem insert_count (known : s.catalog.table? id = some t)
    (counted : values.length ≠ t.columnCount) :
    s.insert id values = .error (.usage (.valueCount t.name t.columnCount values.length)) := by
  simp only [Store.insert, Store.table, known, bind, Except.bind, if_pos counted]
  rfl

/-- A row whose table and key value a stored row has is refused. -/
theorem insert_duplicate (holds : s.Holds rows) (known : s.catalog.table? id = some t)
    (counted : values.length = t.columnCount) {r : StoredRow} (member : r ∈ rows)
    (same : r.segment = .of t.id (primaryKey t values)) :
    s.insert id values = .error (.usage (.duplicateKey (primaryKey t values) t.name)) := by
  have inside := (holds.forest.table?_eq_some known).1
  have found : findKey? s.contents t (primaryKey t values) = some r.key.bytes :=
    (holds.mirrors.findKey?_eq_some_iff holds.forest holds.plain inside).2 ⟨r, member, same, rfl⟩
  have matched : ¬ values.length ≠ t.columnCount := fun different => different counted
  simp only [Store.insert, Store.table, known, bind, Except.bind, if_neg matched,
    holds.groupSpaceOf_eq inside, found, Option.isSome_some, if_true]
  rfl

variable (holds : s.Holds rows) (known : s.catalog.table? id = some t)
  (counted : values.length = t.columnCount)
  (fresh : ∀ r ∈ rows, r.segment ≠ .of t.id (primaryKey t values))
include holds known counted fresh

theorem insert_unwritable {fault : EncodingFault}
    (failed : Codec.Body.encodeRow values = .error fault) :
    s.insert id values = .error (.encoding fault) := by
  have inside := (holds.forest.table?_eq_some known).1
  have missing := (holds.mirrors.findKey?_eq_none_iff holds.forest holds.plain inside).2 fresh
  have matched : ¬ values.length ≠ t.columnCount := fun different => different counted
  obtain ⟨key, place, _⟩ := holds.mirrors.placeOf_spec holds.forest holds.plain inside values
  simp only [Store.insert, Store.table, known, bind, Except.bind, if_neg matched,
    holds.groupSpaceOf_eq inside, missing, place, writeRow, failed]
  rfl

/-- Any other row comes in at its place. -/
theorem insert_ok {body : Bytes} (encodable : Codec.Body.encodeRow values = .ok body) :
    ∃ key m, Seat s.catalog rows t values key ∧ (⟨t, key, values⟩ : StoredRow).Valid s.catalog ∧
      s.insert id values = .ok (key, s.withContents m) ∧
      (s.withContents m).Holds (withRow s.catalog rows ⟨t, key, values⟩) := by
  have forest := holds.forest
  have plain := holds.plain
  have inside := (forest.table?_eq_some known).1
  have missing := (holds.mirrors.findKey?_eq_none_iff forest plain inside).2 fresh
  have matched : ¬ values.length ≠ t.columnCount := fun different => different counted
  obtain ⟨key, place, seat⟩ := holds.mirrors.placeOf_spec forest plain inside values
  have valid := holds.mirrors.valid_of_seat forest inside seat counted encodable
  have written := writeRow_eq forest valid s.contents
  have added := holds.mirrors.put forest plain valid fresh
  obtain ⟨m, adopted, mirrors⟩ := holds.adopt added (Set.mem_insert _ _)
  refine ⟨key, m, seat, valid, ?_, forest, plain, holds.batches, mirrors⟩
  simp only at written adopted
  simp only [Store.insert, Store.table, known, bind, Except.bind, if_neg matched,
    holds.groupSpaceOf_eq inside, missing, place, written, EncodingFault.lift]
  simp only [StoredRow.own] at adopted
  rw [adopted]
  rfl

end Insert

section Delete

variable {id : TableId} {t : Table} {primary : Value}

theorem delete_unknown (absent : s.catalog.table? id = none) :
    s.delete id primary = .error (.usage (.unknownTable id)) := by
  simp only [Store.delete, Store.table, absent, bind, Except.bind]

theorem delete_missing (holds : s.Holds rows) (known : s.catalog.table? id = some t)
    (missing : ∀ r ∈ rows, r.segment ≠ .of t.id primary.keyForm) :
    s.delete id primary = .ok (false, s) := by
  have inside := (holds.forest.table?_eq_some known).1
  have none := (holds.mirrors.findKey?_eq_none_iff holds.forest holds.plain inside).2 missing
  simp only [Store.delete, Store.table, known, bind, Except.bind,
    holds.groupSpaceOf_eq inside, none]
  rfl

/-- A stored row is removed from every keyspace. -/
theorem delete_stored (holds : s.Holds rows) (known : s.catalog.table? id = some t) {r : StoredRow}
    (member : r ∈ rows) (same : r.segment = .of t.id primary.keyForm) :
    ∃ m, s.delete id primary = .ok (true, s.withContents m) ∧
      (s.withContents m).Holds (rows \ {r}) := by
  have forest := holds.forest
  have plain := holds.plain
  have mirrors := holds.mirrors
  have valid := mirrors.valid r member
  have inside := (forest.table?_eq_some known).1
  have table : r.table = t := forest.id_inj valid.known inside (congrArg Segment.table same)
  have form : Codec.Sortable.encode primary.keyForm = Codec.Sortable.encode r.own :=
    (congrArg Segment.value same).symm
  have found : findKey? s.contents t primary.keyForm = some r.key.bytes :=
    (mirrors.findKey?_eq_some_iff forest plain inside).2 ⟨r, member, same, rfl⟩
  have stored : s.contents.getIn? (groupSpace (s.catalog.groupName t)) r.key.bytes = some r.body :=
    (mirrors.getIn?_iff forest plain (holds.group_plain inside)).2
      ⟨r, member, StoredRow.group_mem_places.2 ⟨by rw [table], rfl⟩⟩
  have places : ∀ key, key ∈ indexKeys s.catalog r ++
      [encodeKey (groupSpace (s.catalog.groupName t)) r.key.bytes,
        encodeKey (primarySpace t.name) (Codec.Sortable.encode primary.keyForm)] ↔
      ∃ e ∈ r.entries s.catalog, e.1 = key := by
    intro key
    rw [← List.mem_map, keys_entries, table, form]
    simp only [List.mem_append, List.mem_cons, List.not_mem_nil, or_false]
    rw [or_comm, or_assoc]
  refine ⟨s.contents.eraseAll _, ?_, forest, plain, holds.batches,
    mirrors.remove forest plain member places⟩
  subst table
  simp only [Store.delete, Store.table, known, bind, Except.bind, holds.groupSpaceOf_eq inside,
    found, RowKey.ofBytes_bytes valid.written, EncodingFault.lift, stored,
    Codec.Body.decodeRow_encodeRow valid.encodable, eraseIndexEntries_eq, ByteMap.eraseAll,
    List.foldl_append]
  rfl

end Delete

end Store.Holds

/-- One call that changes a store. -/
inductive Change where
  | insert (table : TableId) (values : List Value)
  | delete (table : TableId) (primary : Value)

namespace Store

/-- A store that nothing was written to. -/
def fresh (c : Catalog) (config : Storage.EngineConfig) (batchSize : Nat) : Store :=
  (create c (.create config)).withBatchSize batchSize

/-- The store after a call. A refused call leaves it as it was. -/
def after (s : Store) : Change → Store
  | .insert table values =>
    match s.insert table values with
    | .ok (_, s') => s'
    | .error _ => s
  | .delete table primary =>
    match s.delete table primary with
    | .ok (_, s') => s'
    | .error _ => s

def run (s : Store) (changes : List Change) : Store := changes.foldl after s

def insertions (l : List (TableId × List Value)) : List Change :=
  l.map fun row => .insert row.1 row.2

theorem holds_fresh {c : Catalog} (forest : c.Forest) (plain : c.Plain)
    (config : Storage.EngineConfig) (batchSize : Nat) : (fresh c config batchSize).Holds ∅ :=
  ⟨forest, plain, Nat.le_max_right _ _, Mirrors.empty c⟩

variable {s : Store} {rows : Set StoredRow}

/-- An insertion brings one row in, or is refused. -/
theorem Holds.insert_cases (holds : s.Holds rows) (id : TableId) (values : List Value) :
    (∃ error, s.insert id values = .error error) ∨
    ∃ t key m, s.catalog.table? id = some t ∧ Seat s.catalog rows t values key ∧
      (⟨t, key, values⟩ : StoredRow).Valid s.catalog ∧
      (∀ r ∈ rows, r.segment ≠ .of t.id (primaryKey t values)) ∧
      s.insert id values = .ok (key, s.withContents m) ∧
      (s.withContents m).Holds (withRow s.catalog rows ⟨t, key, values⟩) := by
  cases known : s.catalog.table? id with
  | none => exact .inl ⟨_, insert_unknown known⟩
  | some t =>
    by_cases counted : values.length = t.columnCount
    · by_cases fresh : ∀ r ∈ rows, r.segment ≠ .of t.id (primaryKey t values)
      · cases encodable : Codec.Body.encodeRow values with
        | error fault => exact .inl ⟨_, holds.insert_unwritable known counted fresh encodable⟩
        | ok body =>
          obtain ⟨key, m, seat, valid, done, holds'⟩ :=
            holds.insert_ok known counted fresh encodable
          exact .inr ⟨t, key, m, rfl, seat, valid, fresh, done, holds'⟩
      · simp only [not_forall, not_not] at fresh
        obtain ⟨r, member, same⟩ := fresh
        exact .inl ⟨_, holds.insert_duplicate known counted member same⟩
    · exact .inl ⟨_, insert_count known counted⟩

/-- An insertion that went well brought its row in at its place. -/
theorem Holds.of_insert (holds : s.Holds rows) {id : TableId} {values : List Value} {key : RowKey}
    {s' : Store} (inserted : s.insert id values = .ok (key, s')) :
    ∃ t m, s.catalog.table? id = some t ∧ t.id = id ∧ Seat s.catalog rows t values key ∧
      (⟨t, key, values⟩ : StoredRow).Valid s.catalog ∧
      (∀ r ∈ rows, r.segment ≠ .of t.id (primaryKey t values)) ∧ s' = s.withContents m ∧
      (s.withContents m).Holds (withRow s.catalog rows ⟨t, key, values⟩) := by
  rcases holds.insert_cases id values with
    ⟨error, refused⟩ | ⟨t, key', m, known, seat, valid, fresh, done, holds'⟩
  · rw [refused] at inserted
    cases inserted
  · rw [done] at inserted
    obtain ⟨rfl, rfl⟩ := Prod.mk.inj (Except.ok.inj inserted)
    exact ⟨t, m, known, (holds.forest.table?_eq_some known).2, seat, valid, fresh, rfl, holds'⟩

/-- A deletion takes one row away or leaves all rows. -/
theorem Holds.delete_cases (holds : s.Holds rows) (id : TableId) (primary : Value) :
    (∃ error, s.delete id primary = .error error) ∨ s.delete id primary = .ok (false, s) ∨
    ∃ r ∈ rows, ∃ m, s.delete id primary = .ok (true, s.withContents m) ∧
      (s.withContents m).Holds (rows \ {r}) := by
  cases known : s.catalog.table? id with
  | none => exact .inl ⟨_, delete_unknown known⟩
  | some t =>
    by_cases missing : ∀ r ∈ rows, r.segment ≠ .of t.id primary.keyForm
    · exact .inr (.inl (holds.delete_missing known missing))
    · simp only [not_forall, not_not] at missing
      obtain ⟨r, member, same⟩ := missing
      exact .inr (.inr ⟨r, member, holds.delete_stored known member same⟩)

end Store

end Interleave
