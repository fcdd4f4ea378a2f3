import Interleave.Config
import Interleave.Plan.Build

/-!
Running a plan. Parameters are bound while the tree is closed; the tree is then opened, read row by
row and closed, any number of times. The counts go on over all runs.
-/

namespace Interleave

open Pipeline (Phase Counters)

/-- `produced` counts the rows that came out at the top. Like the counts of the operators it is a
natural number and stands for an atomic counter of 64 bits. -/
structure Execution where
  run : Run
  bindings : Bindings
  config : Config
  produced : Nat

namespace Execution

def create (c : Catalog) (plan : Plan) (config : Config) : Except QueryError Execution := do
  config.validate
  return ⟨.fresh (← plan.build c), .empty, config, 0⟩

def phase (e : Execution) : Phase := e.run.phase

def counters (e : Execution) : Counters := e.run.counters

def bind (e : Execution) (key : BindingKey) (binding : Binding) : Except QueryError Execution :=
  if e.phase.isOpen then .error (.usage .boundWhileOpen)
  else .ok { e with bindings := e.bindings.set key binding }

/-- A tree that fails to open is closed in all its parts, whatever closing it answers. -/
def launch (e : Execution) (store : Store) : Except QueryError Unit × Execution :=
  if e.phase.isOpen then (.error (.usage .treeOpenedTwice), e)
  else
    let (answer, run) := e.run.launch store e.bindings
    match answer with
    | .error error => (.error error, { e with run := run.close.2 })
    | .ok () => (.ok (), { e with run })

def next (e : Execution) (store : Store) : Except QueryError (Option Row) × Execution :=
  let (answer, run) := e.run.advance store
  match answer with
  | .ok (some row) => (.ok (some row), { e with run, produced := e.produced + 1 })
  | .ok none => (.ok none, { e with run })
  | .error error => (.error error, { e with run })

def advance (e : Execution) (store : Store) : Except QueryError Bool × Execution :=
  let (answer, e) := e.next store
  (answer.map Option.isSome, e)

def currentRow (e : Execution) : Except QueryError Row := e.run.currentRow

def close (e : Execution) : Except QueryError Unit × Execution :=
  let (answer, run) := e.run.close
  (answer, { e with run })

/-- The rows that are left, up to the first error. -/
def drain (e : Execution) (store : Store) : List Row × Option QueryError × Execution :=
  let (rows, ending, run) := e.run.drain store
  (rows, ending, { e with run, produced := e.produced + rows.length })

/-- Opens the tree, reads all of it and closes it, also after an error. -/
def collect (e : Execution) (store : Store) : Except QueryError (List Row) × Execution :=
  match e.launch store with
  | (.error error, e) => (.error error, e)
  | (.ok (), e) =>
    match e.drain store with
    | (_, some error, e) => (.error error, e.close.2)
    | (rows, none, e) =>
      let (answer, e) := e.close
      (answer.map fun () => rows, e)

/-- Advances to the end or the first error and counts the rows, on top of those `counted` before.
`fuel` is above the number of rows left, if they come to an end. -/
def tally (store : Store) : Nat → Nat → Execution → Except QueryError Nat × Execution
  | 0, _, e => (.error .unfinished, e)
  | fuel + 1, counted, e =>
    let (answer, e) := e.advance store
    match answer with
    | .error error => (.error error, e)
    | .ok false => (.ok counted, e)
    | .ok true => tally store fuel (counted + 1) e

/-- Opens the tree, advances it to its end and closes it, also after an error. No row is kept. -/
def count (e : Execution) (store : Store) : Except QueryError Nat × Execution :=
  match e.launch store with
  | (.error error, e) => (.error error, e)
  | (.ok (), e) =>
    match e.tally store (e.run.ahead store + 1) 0 with
    | (.error error, e) => (.error error, e.close.2)
    | (.ok counted, e) =>
      let (answer, e) := e.close
      (answer.map fun () => counted, e)

end Execution

end Interleave
