import Interleave.Pipeline.Machine

/-!
A source of given rows. An item may also be a failure, which one advance then reports.
-/

namespace Interleave.Pipeline

/-- A row, or what an adapter says when it fails to deliver one. -/
abbrev FeedItem := Except String Row

namespace Feed

structure State where
  progress : Progress
  items : List FeedItem

def name : String := "Rows"

def advance (s : State) : Except QueryError (Option Row) × State :=
  let (answer, progress) := s.progress.begin name
  match answer with
  | .error e => (.error e, { s with progress })
  | .ok false => (.ok none, { s with progress })
  | .ok true =>
    match s.items with
    | [] => (.ok none, { s with progress := progress.exhaust })
    | .error text :: rest => (.error (.adapter text), ⟨progress, rest⟩)
    | .ok row :: rest => (.ok (some row), ⟨progress.emit row, rest⟩)

def launch (items : List FeedItem) (s : State) : Except QueryError Unit × State :=
  match s.progress.checkClosed name with
  | .error e => (.error e, s)
  | .ok () => (.ok (), ⟨s.progress.start, items⟩)

def machine (items : List FeedItem) : Machine State where
  name := name
  fresh := ⟨.fresh, []⟩
  launch _ _ s := launch items s
  advance _ s := advance s
  close s := (.ok (), { s with progress := s.progress.close })
  progress s := s.progress
  counters _ := ⟨0, 0⟩
  ahead _ s := s.items.length

end Feed

end Interleave.Pipeline
