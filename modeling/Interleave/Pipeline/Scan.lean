import Interleave.Pipeline.Machine

/-!
Sources that read the store: every row of a group in key order, which is the order of a walk over
the hierarchy that visits a row before the rows below it, and the entries of an index in a bound
range. The range is read from the bindings each time the scan is opened.
-/

namespace Interleave.Pipeline

/-- An index scan of a plan. The range is bound to the slot, if there is one, and otherwise to the
scan itself. -/
structure IndexScan where
  id : Nat
  rowType : RowType
  slot : Option Nat
  required : Bool

def IndexScan.bindingKey (scan : IndexScan) : BindingKey :=
  match scan.slot with
  | some slot => .slot slot
  | none => .operator scan.id

namespace Scan

structure State where
  progress : Progress
  traversal : Option Traversal
  read : Nat

def fresh : State := ⟨.fresh, none, 0⟩

/-- Takes one row from the traversal. `label` names the scan when there is none. -/
def pull (label : String) (store : Store) (s : State) : Except QueryError (Option Row) × State :=
  match s.traversal with
  | none => (.error (.usage (.noTraversal label)), s)
  | some traversal =>
    let (answer, traversal) := traversal.advance store
    let s := { s with traversal := some traversal }
    match answer with
    | .error e => (.error e, s)
    | .ok false => (.ok none, { s with progress := s.progress.exhaust })
    | .ok true =>
      match traversal.currentRow store with
      | .error e => (.error e, s)
      | .ok row => (.ok (some row), { s with progress := s.progress.emit row, read := s.read + 1 })

def advance (name label : String) (store : Store) (s : State) :
    Except QueryError (Option Row) × State :=
  let (answer, progress) := s.progress.begin name
  let s := { s with progress }
  match answer with
  | .error e => (.error e, s)
  | .ok false => (.ok none, s)
  | .ok true => pull label store s

def openOn (s : State) (traversal : Traversal) : State :=
  { s with traversal := some traversal, progress := s.progress.start }

/-- Opens a scan on a traversal, if it is closed and there is one. -/
def launch (name : String) (traversed : Except QueryError Traversal) (s : State) :
    Except QueryError Unit × State :=
  match s.progress.checkClosed name with
  | .error e => (.error e, s)
  | .ok () =>
    match traversed with
    | .error e => (.error e, s)
    | .ok traversal => (.ok (), openOn s traversal)

def close (s : State) : Except QueryError Unit × State :=
  (.ok (), { s with traversal := none, progress := s.progress.close })

def ahead (store : Store) (s : State) : Nat := (s.traversal.map (·.ahead store)).getD 0

/-- The range that a scan is to read, if the bindings suit the index. -/
def resolveRange (scan : IndexScan) (bindings : Bindings) : Except QueryError IndexRange :=
  let key := scan.bindingKey
  match bindings.range? key with
  | .error fault => .error (.binding fault)
  | .ok none =>
    if scan.required then .error (.binding (.unbound scan.rowType.name key)) else .ok .unbounded
  | .ok (some range) =>
    if scan.rowType.columnCount < range.width then
      .error (.binding (.tooWide key range.width scan.rowType.name scan.rowType.columnCount))
    else .ok range

/-- The entries of a scan's index in the range that is bound. -/
def traverseRange (scan : IndexScan) (store : Store) (bindings : Bindings) :
    Except QueryError Traversal := do
  match scan.rowType.indexId? with
  | none => throw (.usage (.notIndex scan.rowType.name))
  | some index => store.traverseIndex index (← resolveRange scan bindings)

end Scan

namespace GroupScan

def name : String := "GroupScan"

def machine (group : GroupId) : Machine Scan.State where
  name := name
  fresh := Scan.fresh
  launch store _ s := Scan.launch name (store.traverseGroup group) s
  advance store s := Scan.advance name "group" store s
  close := Scan.close
  progress s := s.progress
  counters s := ⟨s.read, 0⟩
  ahead := Scan.ahead

end GroupScan

namespace IndexScan

def name : String := "IndexScan"

def machine (scan : IndexScan) : Machine Scan.State where
  name := name
  fresh := Scan.fresh
  launch store bindings s := Scan.launch name (Scan.traverseRange scan store bindings) s
  advance store s := Scan.advance name "index" store s
  close := Scan.close
  progress s := s.progress
  counters s := ⟨s.read, 0⟩
  ahead := Scan.ahead

end IndexScan

end Interleave.Pipeline
