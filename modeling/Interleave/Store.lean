import Interleave.Catalog
import Interleave.Codec.Body
import Interleave.Query.Error
import Interleave.RowKey.Segments

/-!
Stored rows. A group keeps its rows under their row keys, each index keeps its key columns followed
by the row key, and each table finds the row key of a primary key. A row whose parent is missing
is kept under an orphan key, where the missing parent would stand below nothing but nulls, and
moves under the parent when the parent arrives.
-/

namespace Interleave

open Storage (ByteMap Bound Entry Cursor Engine)

/-- `batchSize` is the number of entries that a traversal reads at a time. -/
structure Store where
  catalog : Catalog
  engine : Engine
  batchSize : Nat

namespace Store

def defaultBatchSize : Nat := 256

def create (catalog : Catalog) (engine : Engine) : Store := ⟨catalog, engine, defaultBatchSize⟩

def withBatchSize (s : Store) (size : Nat) : Store := { s with batchSize := max size 1 }

def contents (s : Store) : ByteMap := s.engine.committed

def withContents (s : Store) (contents : ByteMap) : Store :=
  { s with engine := { s.engine with committed := contents } }

/-- The keyspace of a group's rows. -/
def groupSpace (group : String) : String := "group." ++ group

/-- The keyspace of an index's entries. -/
def indexSpace (index : String) : String := "index." ++ index

/-- The keyspace from a table's primary keys to row keys. -/
def primarySpace (table : String) : String := "pk." ++ table

def indexKey (index : Index) (values : List Value) (key : RowKey) : Bytes :=
  Codec.Sortable.encodeAll (index.columns.map fun column => (values[column]?).getD .null) ++ key.bytes

def nullKey (path : List Table) : RowKey := RowKey.ofSegments (path.map fun t => (t.id, .null))

/-- The key of a row of `table` with key value `value` whose parent is not stored. -/
def orphanKey (c : Catalog) (table : TableId) (value : Value) : RowKey :=
  (nullKey ((c.path table).filter fun t => t.id ≠ table)).push table value

/-- The key value of a row. -/
def primaryKey (t : Table) (values : List Value) : Value := ((values[t.primaryKey]?).getD .null).keyForm

def findKey? (m : ByteMap) (t : Table) (keyValue : Value) : Option Bytes :=
  m.getIn? (primarySpace t.name) (Codec.Sortable.encode keyValue)

/-- Where a row belongs: below its stored parent, else below the place kept for its parent. -/
def placeOf (c : Catalog) (m : ByteMap) (t : Table) (values : List Value) :
    Except QueryError RowKey :=
  let own := primaryKey t values
  match t.parent with
  | none => .ok (RowKey.empty.push t.id own)
  | some link =>
    match c.table? link.table with
    | none => .error (.usage (.unknownTable link.table))
    | some parent =>
      let foreign := ((values[link.column]?).getD .null).keyForm
      match findKey? m parent foreign with
      | none => .ok ((orphanKey c parent.id foreign).push t.id own)
      | some bytes =>
        match RowKey.ofBytes bytes with
        | .error fault => .error (.encoding fault)
        | .ok above => .ok (above.push t.id own)

/-- Writes a row with its primary key and index entries. -/
def writeRow (c : Catalog) (space : String) (m : ByteMap) (t : Table) (key : RowKey)
    (values : List Value) : Except EncodingFault ByteMap :=
  (Codec.Body.encodeRow values).map fun body =>
    let m := m.putIn space key.bytes body
    let m := match values[t.primaryKey]? with
      | some v => m.putIn (primarySpace t.name) (Codec.Sortable.encode v.keyForm) key.bytes
      | none => m
    (c.indexesOn t.id).foldl
      (fun m index => m.putIn (indexSpace index.name) (indexKey index values key) []) m

def eraseIndexEntries (c : Catalog) (m : ByteMap) (t : Table) (key : RowKey)
    (values : List Value) : ByteMap :=
  (c.indexesOn t.id).foldl
    (fun m index => m.eraseIn (indexSpace index.name) (indexKey index values key)) m

/-- Moves one stored row from below `from` to below `to`. -/
def moveRow (c : Catalog) (space : String) (source target : RowKey) (m : ByteMap) (entry : Entry) :
    Except EncodingFault ByteMap := do
  let old ← RowKey.ofBytes entry.1
  let new ← RowKey.ofBytes (target.bytes ++ entry.1.drop source.bytes.length)
  match old.lastTable?.bind c.table? with
  | none => .error (.storedKeyPath old.display)
  | some t =>
    let values ← Codec.Body.decodeRow entry.2
    let m := eraseIndexEntries c (m.eraseIn space entry.1) t old values
    writeRow c space m t new values

/-- Moves the rows that waited for a row with this key value to below the row. -/
def adoptOrphans (s : Store) (space : String) (m : ByteMap) (t : Table) (own : Value) (key : RowKey) :
    Except QueryError ByteMap :=
  let waiting := orphanKey s.catalog t.id own
  if waiting = key then .ok m
  else
    let low := Bound.included waiting.bytes
    let high := Bound.pastExtensions waiting.bytes
    match (Cursor.between m s.engine.cursorBatch space low high).drain? with
    | none => .error .unfinished
    | some entries => EncodingFault.lift (entries.foldlM (moveRow s.catalog space waiting key) m)

def table (s : Store) (id : TableId) : Except QueryError Table :=
  match s.catalog.table? id with
  | some t => .ok t
  | none => .error (.usage (.unknownTable id))

def groupSpaceOf (s : Store) (t : Table) : Except QueryError String :=
  match s.catalog.group? t.group with
  | some g => .ok (groupSpace g.name)
  | none => .error (.usage (.noGroup t.name))

/-- Stores a new row and answers its key. A refused row changes nothing. -/
def insert (s : Store) (id : TableId) (values : List Value) : Except QueryError (RowKey × Store) := do
  let t ← s.table id
  if values.length ≠ t.columnCount then
    throw (.usage (.valueCount t.name t.columnCount values.length))
  let space ← s.groupSpaceOf t
  let own := primaryKey t values
  let m := s.contents
  if (findKey? m t own).isSome then
    throw (.usage (.duplicateKey own t.name))
  let key ← placeOf s.catalog m t values
  let m ← EncodingFault.lift (writeRow s.catalog space m t key values)
  let m ← adoptOrphans s space m t own key
  return (key, s.withContents m)

/-- Removes a row by its primary key and answers whether there was one. Rows below it stay. -/
def delete (s : Store) (id : TableId) (primary : Value) : Except QueryError (Bool × Store) := do
  let t ← s.table id
  let space ← s.groupSpaceOf t
  let own := primary.keyForm
  let m := s.contents
  match findKey? m t own with
  | none => return (false, s)
  | some bytes =>
    let key ← EncodingFault.lift (RowKey.ofBytes bytes)
    let m ← match m.getIn? space key.bytes with
      | none => pure m
      | some body => do
        let values ← EncodingFault.lift (Codec.Body.decodeRow body)
        pure ((eraseIndexEntries s.catalog m t key values).eraseIn space key.bytes)
    return (true, s.withContents (m.eraseIn (primarySpace t.name) (Codec.Sortable.encode own)))

end Store

end Interleave
