import Interleave.Pipeline.Machine

/-!
Joining parents with children. The parent row read last is kept in sight: each child row below it
is joined with it, and other rows below it pass. A parent without a child row goes out alone once
its subtree is over, so every row that comes in goes out, alone or inside a joined row.
-/

namespace Interleave.Pipeline.Flatten

/-- The parent row in sight, if any: not joined so far, or joined already. -/
inductive Lookback where
  | noParent
  | waiting (parent : Row)
  | joined (parent : Row)

namespace Lookback

/-- A parent that is left without a child row. -/
def released : Lookback → List Row
  | waiting parent => [parent]
  | _ => []

/-- What one row does to the parent in sight, and the rows that go out. -/
def absorb (parentType childType : RowType) (l : Lookback) (row : Row) : Lookback × List Row :=
  if row.rowType.same parentType then (waiting row, l.released)
  else match l with
    | noParent => (noParent, [row])
    | waiting parent =>
      if !parent.isAbove row then (noParent, [parent, row])
      else if row.rowType.same childType then
        (joined parent, [parent.join row (.flattened parentType childType)])
      else (waiting parent, [row])
    | joined parent =>
      if !parent.isAbove row then (noParent, [row])
      else if row.rowType.same childType then
        (joined parent, [parent.join row (.flattened parentType childType)])
      else (joined parent, [row])

end Lookback

/-- `output` holds rows that are ready to go out. -/
structure State (σ : Type) where
  progress : Progress
  input : σ
  lookback : Lookback
  output : List Row
  ended : Bool

def name : String := "Flatten"

variable {σ : Type}

def reset (s : State σ) : State σ := { s with lookback := .noParent, output := [], ended := false }

/-- Reads input until a row is ready. `fuel` is above the number of rows that the input has left, if
they come to an end, and one more for the end. -/
def pull (parentType childType : RowType) (input : Machine σ) (store : Store) :
    Nat → State σ → Except QueryError (Option Row) × State σ
  | 0, s => (.error .unfinished, s)
  | fuel + 1, s =>
    match s.output with
    | row :: rest => (.ok (some row), { s with progress := s.progress.emit row, output := rest })
    | [] =>
      if s.ended then (.ok none, { s with progress := s.progress.exhaust })
      else
        let (answer, below) := input.advance store s.input
        let s := { s with input := below }
        match answer with
        | .error e => (.error e, s)
        | .ok none =>
          pull parentType childType input store fuel
            { s with lookback := .noParent, output := s.lookback.released, ended := true }
        | .ok (some row) =>
          let (lookback, output) := s.lookback.absorb parentType childType row
          pull parentType childType input store fuel { s with lookback, output }

def advance (parentType childType : RowType) (input : Machine σ) (store : Store) (s : State σ) :
    Except QueryError (Option Row) × State σ :=
  let (answer, progress) := s.progress.begin name
  let s := { s with progress }
  match answer with
  | .error e => (.error e, s)
  | .ok false => (.ok none, s)
  | .ok true => pull parentType childType input store (input.ahead store s.input + 2) s

def launch (input : Machine σ) (store : Store) (bindings : Bindings) (s : State σ) :
    Except QueryError Unit × State σ :=
  match s.progress.checkClosed name with
  | .error e => (.error e, s)
  | .ok () =>
    let (answer, below) := input.launch store bindings s.input
    let s := { s with input := below }
    match answer with
    | .error e => (.error e, s)
    | .ok () => (.ok (), { reset s with progress := s.progress.start })

def close (input : Machine σ) (s : State σ) : Except QueryError Unit × State σ :=
  let s := { reset s with progress := s.progress.close }
  let (answer, below) := input.close s.input
  (answer, { s with input := below })

def machine (parentType childType : RowType) (input : Machine σ) : Machine (State σ) where
  name := name
  fresh := ⟨.fresh, input.fresh, .noParent, [], false⟩
  launch := launch input
  advance := advance parentType childType input
  close := close input
  progress s := s.progress
  counters s := input.counters s.input
  ahead store s := s.output.length + s.lookback.released.length + input.ahead store s.input

end Interleave.Pipeline.Flatten
