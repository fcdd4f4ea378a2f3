import Interleave.Storage.Layout

/-!
Forward cursors over one logical table. A cursor holds one batch of entries at a time and loads the
next strictly after the last key of the batch. After a full batch more may follow; a batch that
came back short is the last one.
-/

namespace Interleave.Storage

structure Cursor where
  contents : ByteMap
  batchSize : Nat
  table : String
  low : Bound
  high : Bound
  batch : List Entry
  position : Option Nat
  hasMore : Bool
  started : Bool

namespace Cursor

/-- A cursor that has not loaded anything yet. -/
def between (contents : ByteMap) (batchSize : Nat) (table : String) (low high : Bound) : Cursor :=
  ⟨contents, batchSize, table, low, high, [], none, false, false⟩

def current? (c : Cursor) : Option Entry := c.position.bind fun p => c.batch[p]?

/-- Starts anew with the first batch from `low` on. -/
def loadFrom (c : Cursor) (low : Bound) : Cursor :=
  let batch := c.contents.rangeIn c.table low c.high c.batchSize
  { c with
    started := true
    batch
    hasMore := decide (c.batchSize ≤ batch.length)
    position := if batch.isEmpty then none else some 0 }

/-- Whether the range starts above a key, so that seeking the key finds the range's first entry. -/
def startsPast (c : Cursor) (key : Bytes) : Bool :=
  match c.low with
  | .included b => key < b
  | .excluded b => !decide (b < key)
  | .unbounded => false

def seek (c : Cursor) (key : Bytes) : Cursor :=
  if c.startsPast key then c.loadFrom c.low else c.loadFrom (.included key)

def seekFirst (c : Cursor) : Cursor := c.loadFrom c.low

/-- A cursor that ran off the end stays there until the next seek. -/
def next (c : Cursor) : Cursor :=
  if !c.started then c.seekFirst
  else match c.position with
    | none => c
    | some p =>
      if p + 1 < c.batch.length then { c with position := some (p + 1) }
      else if !c.hasMore then { c with position := none }
      else match c.batch[p]? with
        | some last => c.loadFrom (.excluded last.1)
        | none => { c with position := none }

/-- The next entries, at most `count` of them, and whether the cursor then stands on one. -/
def take : Nat → Cursor → List Entry × Bool × Cursor
  | 0, c => ([], true, c)
  | count + 1, c =>
    let c := c.next
    match c.current? with
    | none => ([], false, c)
    | some entry =>
      let (rest, more, c) := take count c
      (entry :: rest, more, c)

/-- More than the number of entries that `next` can yield. Each batch is fixed by the key that it
starts after, so a cursor that ends loads no more batches than there are keys. -/
def yieldBound (contents : ByteMap) : Nat := (contents.size + 1) * (contents.size + 1)

/-- Every entry that is still to come, if they come to an end. -/
def drain? (c : Cursor) : Option (List Entry) :=
  let (entries, more, _) := c.take (yieldBound c.contents)
  if more then none else some entries

end Cursor

end Interleave.Storage
