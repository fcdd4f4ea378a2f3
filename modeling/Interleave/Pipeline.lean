import Interleave.Pipeline.Feed
import Interleave.Pipeline.Flatten
import Interleave.Pipeline.IndexLookup
import Interleave.Pipeline.Scan
import Interleave.Pipeline.Select

/-!
Trees of operators and how they run. The machine of a tree is made from the machines of its parts,
so a law that each operator passes on from its input holds of every tree.
-/

namespace Interleave

open Pipeline

inductive Pipeline where
  | feed (items : List FeedItem)
  | groupScan (group : GroupId)
  | indexScan (scan : IndexScan)
  | select (target : RowType) (predicate : Predicate) (input : Pipeline)
  | flatten (parent child : RowType) (input : Pipeline)
  | indexLookup (lookup : IndexLookup) (input : Pipeline)

namespace Pipeline

/-- What a tree remembers between calls. -/
def State : Pipeline → Type
  | feed _ => Feed.State
  | groupScan _ => Scan.State
  | indexScan _ => Scan.State
  | select _ _ input => Select.State input.State
  | flatten _ _ input => Flatten.State input.State
  | indexLookup _ input => IndexLookup.State input.State

def machine : (p : Pipeline) → Machine p.State
  | feed items => Feed.machine items
  | groupScan group => GroupScan.machine group
  | indexScan scan => IndexScan.machine scan
  | select target predicate input => Select.machine target predicate input.machine
  | flatten parent child input => Flatten.machine parent child input.machine
  | indexLookup lookup input => IndexLookup.machine lookup input.machine

/-- The same operators over given rows. -/
def overFeed (items : List FeedItem) : Pipeline → Pipeline
  | feed _ => feed items
  | groupScan _ => feed items
  | indexScan _ => feed items
  | select target predicate input => select target predicate (overFeed items input)
  | flatten parent child input => flatten parent child (overFeed items input)
  | indexLookup lookup input => indexLookup lookup (overFeed items input)

end Pipeline

/-- A tree together with what it remembers. -/
structure Run where
  pipeline : Pipeline
  state : pipeline.State

namespace Run

def fresh (p : Pipeline) : Run := ⟨p, p.machine.fresh⟩

def name (r : Run) : String := r.pipeline.machine.name

def progress (r : Run) : Progress := r.pipeline.machine.progress r.state

def phase (r : Run) : Phase := r.progress.phase

def counters (r : Run) : Counters := r.pipeline.machine.counters r.state

def ahead (store : Store) (r : Run) : Nat := r.pipeline.machine.ahead store r.state

def launch (r : Run) (store : Store) (bindings : Bindings) : Except QueryError Unit × Run :=
  let (answer, state) := r.pipeline.machine.launch store bindings r.state
  (answer, ⟨r.pipeline, state⟩)

def advance (r : Run) (store : Store) : Except QueryError (Option Row) × Run :=
  let (answer, state) := r.pipeline.machine.advance store r.state
  (answer, ⟨r.pipeline, state⟩)

/-- The rows up to the end or the first error, and that error. `fuel` is above the number of rows
left, if they come to an end. -/
def collect (store : Store) : Nat → Run → List Row × Option QueryError × Run
  | 0, r => ([], some .unfinished, r)
  | fuel + 1, r =>
    let (answer, r) := r.advance store
    match answer with
    | .error e => ([], some e, r)
    | .ok none => ([], none, r)
    | .ok (some row) =>
      let (rows, ending, r) := collect store fuel r
      (row :: rows, ending, r)

/-- The rows that are left, up to the first error. -/
def drain (r : Run) (store : Store) : List Row × Option QueryError × Run :=
  r.collect store (r.ahead store + 1)

def close (r : Run) : Except QueryError Unit × Run :=
  let (answer, state) := r.pipeline.machine.close r.state
  (answer, ⟨r.pipeline, state⟩)

def currentRow (r : Run) : Except QueryError Row := r.progress.row r.name

end Run

end Interleave
