import Interleave.Row
import Interleave.Store

/-!
Reading stored rows in key order. A traversal reads batches, each from what is committed at that
moment, and goes on strictly after the last key that it has seen.
-/

namespace Interleave

open Storage (Bound Entry Cursor)

/-- The row stored under a key. -/
def Store.lookup (s : Store) (key : RowKey) : Except QueryError (Option Row) := do
  match key.tableAt? 0, key.lastTable? with
  | some root, some last =>
    let space ← s.groupSpaceOf (← s.table root)
    match s.catalog.tableType? last with
    | none => throw (.usage (.unknownTable last))
    | some rowType =>
      match s.contents.getIn? space key.bytes with
      | none => return none
      | some body =>
        let values ← EncodingFault.lift (Codec.Body.decodeRow body)
        return some ⟨rowType, values, some key⟩
  | _, _ => throw (.usage .emptyLookup)

/-- What the entries of a keyspace hold: rows under their keys, or index entries, whose keys are
`columns` values followed by a row key. -/
inductive EntryKind where
  | row
  | index (columns : Nat) (rowType : RowType)

/-- `resume` is the start of the next batch. `key` and `columnValues` were read from the entry
taken last, whether or not that went well, and `current` is the last that did. -/
structure Traversal where
  keyspace : String
  kind : EntryKind
  resume : Bound
  stop : Bound
  hasMore : Bool
  batch : List Entry
  batchSize : Nat
  key : RowKey
  columnValues : List Value
  current : Option Entry

namespace Traversal

/-- A traversal without bounds is over before it begins. -/
def between (s : Store) (keyspace : String) (kind : EntryKind) : Option (Bound × Bound) → Traversal
  | some (low, high) => ⟨keyspace, kind, low, high, true, [], s.batchSize, .empty, [], none⟩
  | none => ⟨keyspace, kind, .unbounded, .unbounded, false, [], s.batchSize, .empty, [], none⟩

def fill (s : Store) (t : Traversal) : Traversal :=
  let cursor := Cursor.between s.contents s.engine.cursorBatch t.keyspace t.resume t.stop
  let (batch, more, _) := cursor.take t.batchSize
  { t with
    batch
    hasMore := more
    resume := match batch.getLast? with
      | some last => .excluded last.1
      | none => t.resume }

/-- The values at the front of an index key as far as they can be read, and what follows them. -/
def readColumns : Nat → Bytes → List Value × Except EncodingFault Bytes
  | 0, input => ([], .ok input)
  | count + 1, input =>
    match Codec.Sortable.read input with
    | .error fault => ([], .error fault)
    | .ok (v, rest) =>
      let (values, tail) := readColumns count rest
      (v :: values, tail)

/-- The column values of an entry's key, and the bytes of its row key. -/
def splitKey (kind : EntryKind) (key : Bytes) : List Value × Except EncodingFault Bytes :=
  match kind with
  | .row => ([], .ok key)
  | .index columns _ => readColumns columns key

/-- Makes an entry current. When its key does not read, the entry before it stays current. -/
def take (t : Traversal) (entry : Entry) : Except QueryError Bool × Traversal :=
  let (columnValues, rest) := splitKey t.kind entry.1
  let t := { t with columnValues }
  match rest with
  | .error fault => (.error (.encoding fault), t)
  | .ok bytes =>
    let (key, fault) := RowKey.reset bytes
    match fault with
    | some fault => (.error (.encoding fault), { t with key })
    | none => (.ok true, { t with key, current := some entry })

def advance (s : Store) (t : Traversal) : Except QueryError Bool × Traversal :=
  let t := if t.batch.isEmpty && t.hasMore then t.fill s else t
  match t.batch with
  | [] => (.ok false, { t with current := none })
  | entry :: batch => { t with batch }.take entry

def currentKey? (t : Traversal) : Option RowKey := t.current.map fun _ => t.key

def currentRow (s : Store) (t : Traversal) : Except QueryError Row :=
  match t.current with
  | none => .error (.usage .unpositioned)
  | some entry =>
    match t.kind with
    | .index _ rowType => .ok ⟨rowType, t.columnValues, some t.key⟩
    | .row =>
      match t.key.lastTable? with
      | none => .error (.encoding .emptyStoredKey)
      | some table =>
        match s.catalog.tableType? table with
        | none => .error (.encoding (.storedKeyTable table))
        | some rowType =>
          match Codec.Body.decodeRow entry.2 with
          | .error fault => .error (.encoding fault)
          | .ok values => .ok ⟨rowType, values, some t.key⟩

def close (t : Traversal) : Traversal := { t with batch := [], current := none, hasMore := false }

/-- No traversal that ends yields more entries than this in batches of a given size: one batch from
its start, and no more others than there are keys to start after. -/
def yieldBound (s : Store) (batchSize : Nat) : Nat := (s.contents.size + 1) * batchSize

/-- No fewer than the entries that are still to come, while the store does not change. -/
def ahead (s : Store) (t : Traversal) : Nat :=
  t.batch.length + if t.hasMore then yieldBound s t.batchSize else 0

/-- The rows up to the end or the first error, and that error. `fuel` is above the number of
entries left, if they come to an end. -/
def collect (s : Store) : Nat → Traversal → List Row × Option QueryError
  | 0, _ => ([], some .unfinished)
  | fuel + 1, t =>
    let (answer, t) := t.advance s
    match answer with
    | .error e => ([], some e)
    | .ok false => ([], none)
    | .ok true =>
      match t.currentRow s with
      | .error e => ([], some e)
      | .ok row =>
        let (rows, ending) := collect s fuel t
        (row :: rows, ending)

/-- All rows of a traversal, up to its first error. -/
def rows (s : Store) (t : Traversal) : List Row × Option QueryError := t.collect s (t.ahead s + 1)

end Traversal

namespace Store

def group (s : Store) (id : GroupId) : Except QueryError Group :=
  match s.catalog.group? id with
  | some g => .ok g
  | none => .error (.usage (.unknownGroup id))

/-- Every row of a group. -/
def traverseGroup (s : Store) (id : GroupId) : Except QueryError Traversal :=
  (s.group id).map fun g => .between s (groupSpace g.name) .row (some (.unbounded, .unbounded))

/-- A row and the rows below it. -/
def traverseBranch (s : Store) (id : GroupId) (root : RowKey) : Except QueryError Traversal :=
  (s.group id).map fun g =>
    .between s (groupSpace g.name) .row (some (.included root.bytes, .pastExtensions root.bytes))

/-- The entries of an index in a range. -/
def traverseIndex (s : Store) (id : IndexId) (range : IndexRange) : Except QueryError Traversal :=
  match s.catalog.index? id, s.catalog.indexType? id with
  | some index, some rowType =>
    .ok (.between s (indexSpace index.name) (.index index.columns.length rowType) range.keyBounds?)
  | _, _ => .error (.usage (.unknownIndex id))

end Store

end Interleave
