import Interleave.Pipeline.Machine
import Interleave.Predicate

/-!
Dropping rows. A row of the target type that fails the predicate is dropped, and so are the rows
after it that lie below it, whatever their type; the predicate is not asked about those. All other
rows pass in order.
-/

namespace Interleave.Pipeline.Select

/-- Whether a row passes, given the key of the row dropped last, and that key afterwards. The key
is forgotten at the first row outside its subtree. -/
def judge (target : RowType) (predicate : Predicate) (dropped : Option RowKey) (row : Row) :
    Except QueryError Bool × Option RowKey :=
  if dropped.any fun top => row.key.any fun key => top.isAbove key then (.ok false, dropped)
  else if row.rowType.same target then
    match predicate.evaluate row with
    | .error e => (.error e, none)
    | .ok true => (.ok true, none)
    | .ok false => (.ok false, row.key)
  else (.ok true, none)

structure State (σ : Type) where
  progress : Progress
  input : σ
  dropped : Option RowKey
  filtered : Nat

def name : String := "Select"

variable {σ : Type}

/-- Looks for a row that passes. `fuel` is above the number of rows that the input has left, if they
come to an end. -/
def pull (target : RowType) (predicate : Predicate) (input : Machine σ) (store : Store) :
    Nat → State σ → Except QueryError (Option Row) × State σ
  | 0, s => (.error .unfinished, s)
  | fuel + 1, s =>
    let (answer, below) := input.advance store s.input
    let s := { s with input := below }
    match answer with
    | .error e => (.error e, s)
    | .ok none => (.ok none, { s with dropped := none, progress := s.progress.exhaust })
    | .ok (some row) =>
      let (verdict, dropped) := judge target predicate s.dropped row
      let s := { s with dropped }
      match verdict with
      | .error e => (.error e, s)
      | .ok true => (.ok (some row), { s with progress := s.progress.emit row })
      | .ok false => pull target predicate input store fuel { s with filtered := s.filtered + 1 }

def advance (target : RowType) (predicate : Predicate) (input : Machine σ) (store : Store)
    (s : State σ) : Except QueryError (Option Row) × State σ :=
  let (answer, progress) := s.progress.begin name
  let s := { s with progress }
  match answer with
  | .error e => (.error e, s)
  | .ok false => (.ok none, s)
  | .ok true => pull target predicate input store (input.ahead store s.input + 1) s

/-- The input is opened first, and what it is left as stays, also when it does not open. -/
def launch (input : Machine σ) (store : Store) (bindings : Bindings) (s : State σ) :
    Except QueryError Unit × State σ :=
  match s.progress.checkClosed name with
  | .error e => (.error e, s)
  | .ok () =>
    let (answer, below) := input.launch store bindings s.input
    let s := { s with input := below }
    match answer with
    | .error e => (.error e, s)
    | .ok () => (.ok (), { s with dropped := none, progress := s.progress.start })

def close (input : Machine σ) (s : State σ) : Except QueryError Unit × State σ :=
  let s := { s with dropped := none, progress := s.progress.close }
  let (answer, below) := input.close s.input
  (answer, { s with input := below })

def machine (target : RowType) (predicate : Predicate) (input : Machine σ) : Machine (State σ) where
  name := name
  fresh := ⟨.fresh, input.fresh, none, 0⟩
  launch := launch input
  advance := advance target predicate input
  close := close input
  progress s := s.progress
  counters s := (input.counters s.input).add ⟨0, s.filtered⟩
  ahead store s := input.ahead store s.input

end Interleave.Pipeline.Select
