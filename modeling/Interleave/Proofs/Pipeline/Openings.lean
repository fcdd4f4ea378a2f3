import Interleave.Pipeline
import Interleave.Proofs.Catalog.Forest

/-!
Opening and closing. An operator that is open refuses to be opened and stays as it is; one above another opens
its input first, and starts only if that went well. Neither opening nor closing a tree counts anything, and
closing it succeeds.
-/

namespace Interleave.Pipeline

theorem Progress.checkClosed_eq (operator : String) {p : Progress} (closed : p.isOpen = false) :
    p.checkClosed operator = .ok () := by
  rw [checkClosed, closed]
  rfl

theorem Progress.checkClosed_open (operator : String) {p : Progress} (up : p.isOpen = true) :
    p.checkClosed operator = .error (.usage (.openedTwice operator)) := if_pos up

variable {σ τ : Type}

/-- What an operator comes to that opens its input first: `s` as it was, if it may not be opened, else over
what its input has become, `under` it if that failed and `start` if it went well. -/
def Progress.openOver (checked : Except QueryError Unit) (s : τ) (launched : Except QueryError Unit × σ)
    (under start : σ → τ) : Except QueryError Unit × τ :=
  match checked with
  | .error e => (.error e, s)
  | .ok () =>
    let (answer, below) := launched
    match answer with
    | .error e => (.error e, under below)
    | .ok () => (.ok (), start below)

namespace Progress

variable {checked : Except QueryError Unit} {s s' : τ} {launched : Except QueryError Unit × σ}
  {under start : σ → τ} {e : QueryError} {below : σ}

theorem openOver_eq_ok (opened : openOver checked s launched under start = (.ok (), s')) :
    ∃ below, launched = (.ok (), below) ∧ s' = start below := by
  rcases checked with _ | _
  · cases opened
  · rcases launched with ⟨_ | _, below⟩ <;> cases opened
    exact ⟨below, rfl, rfl⟩

/-- An operator fails to open as it was, or over an input that failed to open. -/
theorem openOver_eq_error (failed : openOver checked s launched under start = (.error e, s')) :
    s' = s ∨ ∃ below, launched = (.error e, below) ∧ s' = under below := by
  rcases checked with _ | _
  · cases failed
    exact .inl rfl
  · rcases launched with ⟨_ | _, below⟩ <;> cases failed
    exact .inr ⟨below, rfl, rfl⟩

theorem openOver_open (operator : String) {p : Progress} (up : p.isOpen = true) :
    openOver (p.checkClosed operator) s launched under start =
      (.error (.usage (.openedTwice operator)), s) := by
  rw [checkClosed_open operator up]
  rfl

section Closed

variable (operator : String) {p : Progress} (closed : p.isOpen = false)
include closed

theorem openOver_ok (opened : launched = (.ok (), below)) :
    openOver (p.checkClosed operator) s launched under start = (.ok (), start below) := by
  rw [checkClosed_eq operator closed, opened]
  rfl

theorem openOver_error (failed : launched = (.error e, below)) :
    openOver (p.checkClosed operator) s launched under start = (.error e, under below) := by
  rw [checkClosed_eq operator closed, failed]
  rfl

end Closed

/-- What holds of an operator as it was and over what its input becomes holds however opening it ends. -/
theorem openOver_holds {P : τ → Prop} (was : P s) (failed : P (under launched.2))
    (opened : P (start launched.2)) : P (openOver checked s launched under start).2 := by
  rcases checked with _ | _
  · exact was
  · rcases launched with ⟨_ | _, below⟩
    · exact failed
    · exact opened

end Progress

/-- Whether opening and closing a machine count nothing, and closing it succeeds. -/
structure Quiet (m : Machine σ) : Prop where
  launch (store : Store) (bindings : Bindings) (s : σ) :
    m.counters (m.launch store bindings s).2 = m.counters s
  close (s : σ) : m.counters (m.close s).2 = m.counters s
  closes (s : σ) : (m.close s).1 = .ok ()

namespace Feed

variable {items : List FeedItem} {s s' : State} {e : QueryError}

theorem launch_eq_ok (opened : launch items s = (.ok (), s')) : s' = ⟨s.progress.start, items⟩ := by
  rw [launch] at opened
  split at opened <;> cases opened
  rfl

theorem launch_eq_error (failed : launch items s = (.error e, s')) : s' = s := by
  rw [launch] at failed
  split at failed <;> cases failed
  rfl

theorem launch_open (up : s.progress.isOpen = true) :
    launch items s = (.error (.usage (.openedTwice name)), s) := by
  rw [launch, Progress.checkClosed_open name up]

theorem quiet (items : List FeedItem) : Quiet (machine items) := ⟨fun _ _ _ => rfl, fun _ => rfl, fun _ => rfl⟩

end Feed

namespace Scan

variable {name : String} {traversed : Except QueryError Traversal} {t : Traversal} {s s' : State}
  {e : QueryError}

theorem launch_eq_ok (opened : launch name traversed s = (.ok (), s')) :
    ∃ t, traversed = .ok t ∧ s' = openOn s t := by
  unfold launch at opened
  split at opened
  · cases opened
  rcases traversed with _ | t <;> cases opened
  exact ⟨t, rfl, rfl⟩

theorem launch_eq_error (failed : launch name traversed s = (.error e, s')) : s' = s := by
  unfold launch at failed
  split at failed
  · cases failed
    rfl
  rcases traversed with _ | t <;> cases failed
  rfl

theorem launch_open (up : s.progress.isOpen = true) :
    launch name traversed s = (.error (.usage (.openedTwice name)), s) := by
  unfold launch
  rw [Progress.checkClosed_open name up]

section Closed

variable (closed : s.progress.isOpen = false)
include closed

theorem launch_ok (found : traversed = .ok t) : launch name traversed s = (.ok (), openOn s t) := by
  unfold launch
  rw [Progress.checkClosed_eq name closed, found]

theorem launch_error (failed : traversed = .error e) : launch name traversed s = (.error e, s) := by
  unfold launch
  rw [Progress.checkClosed_eq name closed, failed]

end Closed

theorem read_launch : (launch name traversed s).2.read = s.read := by
  rcases launched : launch name traversed s with ⟨_ | _, s'⟩
  · rw [launch_eq_error launched]
  · obtain ⟨_, _, rfl⟩ := launch_eq_ok launched
    rfl

/-- A scan that opens on what it finds in a store. The machines of both kinds of scan unfold to this, so a
law of it is one of either. -/
def traversing (name label : String) (traversed : Store → Bindings → Except QueryError Traversal) :
    Machine State where
  name := name
  fresh := fresh
  launch store bindings s := launch name (traversed store bindings) s
  advance store s := advance name label store s
  close := close
  progress s := s.progress
  counters s := ⟨s.read, 0⟩
  ahead := ahead

theorem quiet {name label : String} {traversed : Store → Bindings → Except QueryError Traversal} :
    Quiet (traversing name label traversed) :=
  ⟨fun _ _ _ => congrArg (Counters.mk · 0) read_launch, fun _ => rfl, fun _ => rfl⟩

theorem traverseRange_eq_ok {scan : IndexScan} {store : Store} {bindings : Bindings}
    (found : traverseRange scan store bindings = .ok t) :
    ∃ index range, scan.rowType.indexId? = some index ∧ resolveRange scan bindings = .ok range ∧
      store.traverseIndex index range = .ok t := by
  rw [traverseRange] at found
  split at found
  · cases found
  next index isIndex =>
    obtain ⟨range, resolved, traversed⟩ := bind_eq_ok found
    exact ⟨index, range, isIndex, resolved, traversed⟩

theorem traverseRange_eq {scan : IndexScan} {index : IndexId} (isIndex : scan.rowType.indexId? = some index)
    (store : Store) (bindings : Bindings) :
    traverseRange scan store bindings = (resolveRange scan bindings).bind (store.traverseIndex index) := by
  rw [traverseRange, isIndex]
  rfl

end Scan

variable {m : Machine σ} {store : Store} {bindings : Bindings}

namespace Select

variable {target : RowType} {predicate : Predicate}

theorem launch_eq (m : Machine σ) (store : Store) (bindings : Bindings) (s : State σ) :
    launch m store bindings s =
      Progress.openOver (s.progress.checkClosed name) s (m.launch store bindings s.input)
        (fun below => { s with input := below })
        fun below => { s with progress := s.progress.start, input := below, dropped := none } := rfl

theorem launch_ok {s : State σ} (closed : s.progress.isOpen = false) {below : σ}
    (launched : m.launch store bindings s.input = (.ok (), below)) :
    launch m store bindings s =
      (.ok (), { s with progress := s.progress.start, input := below, dropped := none }) := by
  rw [launch_eq]
  exact Progress.openOver_ok name closed launched

theorem of_launch {s s' : State σ} (opened : launch m store bindings s = (.ok (), s')) :
    ∃ below, m.launch store bindings s.input = (.ok (), below) ∧
      s' = { s with progress := s.progress.start, input := below, dropped := none } :=
  Progress.openOver_eq_ok ((launch_eq m store bindings s).symm.trans opened)

theorem quiet (input : Quiet m) : Quiet (machine target predicate m) where
  launch store bindings s := by
    have below := congrArg (Counters.add · ⟨0, s.filtered⟩) (input.launch store bindings s.input)
    show (machine target predicate m).counters (launch m store bindings s).2 = _
    rw [launch_eq]
    exact Progress.openOver_holds (P := fun t => (machine target predicate m).counters t = _) rfl below below
  close s := congrArg (Counters.add · _) (input.close s.input)
  closes s := input.closes s.input

end Select

namespace Flatten

variable {parentType childType : RowType}

theorem launch_eq (m : Machine σ) (store : Store) (bindings : Bindings) (s : State σ) :
    launch m store bindings s =
      Progress.openOver (s.progress.checkClosed name) s (m.launch store bindings s.input)
        (fun below => { s with input := below })
        fun below => reset { s with progress := s.progress.start, input := below } := rfl

theorem launch_ok {s : State σ} (closed : s.progress.isOpen = false) {below : σ}
    (launched : m.launch store bindings s.input = (.ok (), below)) :
    launch m store bindings s =
      (.ok (), reset { s with progress := s.progress.start, input := below }) := by
  rw [launch_eq]
  exact Progress.openOver_ok name closed launched

theorem of_launch {s s' : State σ} (opened : launch m store bindings s = (.ok (), s')) :
    ∃ below, m.launch store bindings s.input = (.ok (), below) ∧
      s' = reset { s with progress := s.progress.start, input := below } :=
  Progress.openOver_eq_ok ((launch_eq m store bindings s).symm.trans opened)

theorem quiet (input : Quiet m) : Quiet (machine parentType childType m) where
  launch store bindings s := by
    have below := input.launch store bindings s.input
    show (machine parentType childType m).counters (launch m store bindings s).2 = _
    rw [launch_eq]
    exact Progress.openOver_holds (P := fun t => (machine parentType childType m).counters t = _) rfl
      below below
  close s := input.close s.input
  closes s := input.closes s.input

end Flatten

namespace IndexLookup

variable {lookup : IndexLookup}

theorem launch_eq (m : Machine σ) (store : Store) (bindings : Bindings) (s : State σ) :
    launch m store bindings s =
      Progress.openOver (s.progress.checkClosed name) s (m.launch store bindings s.input)
        (fun below => { s with input := below })
        fun below => { s with progress := s.progress.start, input := below, pending := [], branch := none } :=
  rfl

theorem launch_ok {s : State σ} (closed : s.progress.isOpen = false) {below : σ}
    (launched : m.launch store bindings s.input = (.ok (), below)) :
    launch m store bindings s =
      (.ok (), { s with progress := s.progress.start, input := below, pending := [], branch := none }) := by
  rw [launch_eq]
  exact Progress.openOver_ok name closed launched

theorem of_launch {s s' : State σ} (opened : launch m store bindings s = (.ok (), s')) :
    ∃ below, m.launch store bindings s.input = (.ok (), below) ∧
      s' = { s with progress := s.progress.start, input := below, pending := [], branch := none } :=
  Progress.openOver_eq_ok ((launch_eq m store bindings s).symm.trans opened)

theorem quiet (input : Quiet m) : Quiet (machine lookup m) where
  launch store bindings s := by
    have below := congrArg (Counters.add · ⟨s.read, 0⟩) (input.launch store bindings s.input)
    show (machine lookup m).counters (launch m store bindings s).2 = _
    rw [launch_eq]
    exact Progress.openOver_holds (P := fun t => (machine lookup m).counters t = _) rfl below below
  close s := congrArg (Counters.add · _) (input.close s.input)
  closes s := input.closes s.input

end IndexLookup

theorem quiet (p : Pipeline) : Quiet p.machine := by
  induction p with
  | feed items => exact Feed.quiet items
  | groupScan group => exact Scan.quiet
  | indexScan scan => exact Scan.quiet
  | select target predicate input ih => exact Select.quiet ih
  | flatten parent child input ih => exact Flatten.quiet ih
  | indexLookup lookup input ih => exact IndexLookup.quiet ih

end Interleave.Pipeline

namespace Interleave.Run

/-- Closing a tree succeeds. -/
theorem closes (r : Run) : r.close.1 = .ok () := r.pipeline.quiet.closes r.state

end Interleave.Run
