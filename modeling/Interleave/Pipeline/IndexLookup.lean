import Interleave.Pipeline.Machine

/-!
From index entries back to stored rows. For each entry, in order, the wanted ancestors of the row
that it points to go out, root first, then the row and, if asked for, the rows below it in key
order. Nothing of an entry goes out unless its ancestors and its row are all stored.
-/

namespace Interleave.Pipeline

inductive LookupScope where
  | branch
  | row
deriving DecidableEq

/-- `ancestors` holds tables, root first. -/
structure IndexLookup where
  group : GroupId
  ancestors : List TableId
  scope : LookupScope

namespace IndexLookup

structure State (σ : Type) where
  progress : Progress
  input : σ
  pending : List Row
  branch : Option Traversal
  read : Nat

def name : String := "IndexLookup"

def fetch (store : Store) (key : RowKey) : Except QueryError Row :=
  match store.lookup key with
  | .error e => .error e
  | .ok none => .error (.rowNotFound key)
  | .ok (some row) => .ok row

/-- The key of the row of `table` on the way to a key. -/
def ancestorKey (table : TableId) (key : RowKey) : Except QueryError RowKey :=
  match (key.position? table).bind fun depth => key.ancestor? (depth + 1) with
  | some above => .ok above
  | none => .error (.usage (.offPath table key))

/-- The stored rows of the given tables on the way to a key, and the number of rows asked for. -/
def fetchAncestors (store : Store) (key : RowKey) : List TableId → Except QueryError (List Row) × Nat
  | [] => (.ok [], 0)
  | table :: rest =>
    match ancestorKey table key with
    | .error e => (.error e, 0)
    | .ok above =>
      match fetch store above with
      | .error e => (.error e, 1)
      | .ok row =>
        let (rows, read) := fetchAncestors store key rest
        (rows.map (row :: ·), read + 1)

/-- The first row of a branch, which must be the row at its root. -/
def fetchRoot (store : Store) (group : GroupId) (key : RowKey) : Except QueryError (Row × Traversal) × Nat :=
  match store.traverseBranch group key with
  | .error e => (.error e, 0)
  | .ok branch =>
    match branch.advance store with
    | (.error e, _) => (.error e, 0)
    | (.ok false, _) => (.error (.rowNotFound key), 0)
    | (.ok true, branch) =>
      if branch.currentKey? ≠ some key then (.error (.rowNotFound key), 0)
      else (((branch.currentRow store).map fun row => (row, branch)), 1)

/-- All that one entry stands for: the rows to go out first, the last of which is the entry's own,
and the branch that follows. Also the number of rows read. -/
def expand (lookup : IndexLookup) (store : Store) (key : RowKey) :
    Except QueryError (List Row × Row × Option Traversal) × Nat :=
  match fetchAncestors store key lookup.ancestors with
  | (.error e, read) => (.error e, read)
  | (.ok above, read) =>
    match lookup.scope with
    | .row => ((fetch store key).map fun row => (above, row, none), read + 1)
    | .branch =>
      let (root, more) := fetchRoot store lookup.group key
      (root.map fun (row, branch) => (above, row, some branch), read + more)

variable {σ : Type}

/-- Sends out the first of the rows of an entry. -/
def emitFirst (s : State σ) (rows : List Row) (last : Row) (branch : Option Traversal) :
    Except QueryError (Option Row) × State σ :=
  match rows with
  | [] =>
    (.ok (some last), { s with progress := s.progress.emit last, pending := [], branch })
  | row :: rest =>
    (.ok (some row), { s with progress := s.progress.emit row, pending := rest ++ [last], branch })

def nextEntry (lookup : IndexLookup) (input : Machine σ) (store : Store) (s : State σ) :
    Except QueryError (Option Row) × State σ :=
  let (answer, below) := input.advance store s.input
  let s := { s with input := below }
  match answer with
  | .error e => (.error e, s)
  | .ok none => (.ok none, { s with progress := s.progress.exhaust })
  | .ok (some entry) =>
    match entry.key with
    | none => (.error (.usage .rowWithoutKey), s)
    | some key =>
      let (found, read) := expand lookup store key
      let s := { s with read := s.read + read }
      match found with
      | .error e => (.error e, s)
      | .ok (rows, last, branch) => emitFirst s rows last branch

/-- Rows that are ready go first, then the rest of the branch, then the next entry. -/
def pull (lookup : IndexLookup) (input : Machine σ) (store : Store) (s : State σ) :
    Except QueryError (Option Row) × State σ :=
  match s.pending with
  | row :: rest => (.ok (some row), { s with progress := s.progress.emit row, pending := rest })
  | [] =>
    match s.branch with
    | none => nextEntry lookup input store s
    | some branch =>
      match branch.advance store with
      | (.error e, branch) => (.error e, { s with branch := some branch })
      | (.ok false, _) => nextEntry lookup input store { s with branch := none }
      | (.ok true, branch) =>
        let s := { s with branch := some branch }
        match branch.currentRow store with
        | .error e => (.error e, s)
        | .ok row => (.ok (some row), { s with progress := s.progress.emit row, read := s.read + 1 })

def advance (lookup : IndexLookup) (input : Machine σ) (store : Store) (s : State σ) :
    Except QueryError (Option Row) × State σ :=
  let (answer, progress) := s.progress.begin name
  let s := { s with progress }
  match answer with
  | .error e => (.error e, s)
  | .ok false => (.ok none, s)
  | .ok true => pull lookup input store s

def launch (input : Machine σ) (store : Store) (bindings : Bindings) (s : State σ) :
    Except QueryError Unit × State σ :=
  match s.progress.checkClosed name with
  | .error e => (.error e, s)
  | .ok () =>
    let (answer, below) := input.launch store bindings s.input
    let s := { s with input := below }
    match answer with
    | .error e => (.error e, s)
    | .ok () => (.ok (), { s with pending := [], branch := none, progress := s.progress.start })

def close (input : Machine σ) (s : State σ) : Except QueryError Unit × State σ :=
  let s := { s with pending := [], branch := none, progress := s.progress.close }
  let (answer, below) := input.close s.input
  (answer, { s with input := below })

def machine (lookup : IndexLookup) (input : Machine σ) : Machine (State σ) where
  name := name
  fresh := ⟨.fresh, input.fresh, [], none, 0⟩
  launch := launch input
  advance := advance lookup input
  close := close input
  progress s := s.progress
  counters s := (input.counters s.input).add ⟨s.read, 0⟩
  ahead store s :=
    s.pending.length + ((s.branch.map (·.ahead store)).getD 0) +
      input.ahead store s.input *
        (lookup.ancestors.length + 1 + Traversal.yieldBound store store.batchSize)

end IndexLookup

end Interleave.Pipeline
