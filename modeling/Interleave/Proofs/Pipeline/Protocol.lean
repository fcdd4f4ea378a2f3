import Interleave.Proofs.Pipeline.Renewal
import Interleave.Proofs.Store.Runs

/-!
How a tree may be used. Main statement: whatever is asked of a tree in whatever order, it has a current row
exactly when it was advanced to one last, it gives no row after its end before it is closed, it is opened
only when it is closed and advanced only when it is open, and all its operators hold nothing when it is
closed.
-/

namespace Interleave

open Pipeline

namespace Pipeline

/-- Whether an operator is closed and has no current row. -/
structure Progress.Idle (p : Progress) : Prop where
  closed : p.phase = .closed
  spent : p.current = none

/-- How far an operator has come that looked for a row, by what it answers. -/
inductive Progress.Settled (p : Progress) : Except QueryError (Option Row) → Prop where
  | row {row : Row} (running : p.phase = .running) (current : p.current = some row) :
    Settled p (.ok (some row))
  | ended (exhausted : p.phase = .exhausted) (spent : p.current = none) : Settled p (.ok none)
  | failed {e : QueryError} (running : p.phase = .running) (spent : p.current = none) :
    Settled p (.error e)

variable {σ : Type}

/-- Whether a machine advances as it should: closed not at all, exhausted without a row. -/
structure Steps (m : Machine σ) (Idle : σ → Prop) (store : Store) (s : σ) : Prop where
  closed (closed : (m.progress s).phase = .closed) :
    (m.advance store s).1 = .error (.usage (.advancedClosed m.name))
  idle (idle : Idle s) : Idle (m.advance store s).2
  ended (exhausted : (m.progress s).phase = .exhausted) : (m.advance store s).1 = .ok none
  settled (up : (m.progress s).isOpen = true) :
    (m.progress (m.advance store s).2).Settled (m.advance store s).1

/-- Whether a machine opens, advances and closes as it should. Machines that are `Idle` are closed and hold
nothing. -/
structure Obeys (m : Machine σ) (Idle : σ → Prop) : Prop where
  fresh : Idle m.fresh
  close (s : σ) : Idle (m.close s).2
  idle {s : σ} (idle : Idle s) : (m.progress s).Idle
  refused {s : σ} (store : Store) (bindings : Bindings) (up : (m.progress s).isOpen = true) :
    m.launch store bindings s = (.error (.usage (.openedTwice m.name)), s)
  failed {store : Store} {bindings : Bindings} {s s' : σ} {e : QueryError} (idle : Idle s)
    (failed : m.launch store bindings s = (.error e, s')) : Idle s'
  opened {store : Store} {bindings : Bindings} {s s' : σ}
    (opened : m.launch store bindings s = (.ok (), s')) : m.progress s' = (m.progress s).start
  advance (store : Store) (s : σ) : Steps m Idle store s

/-- A machine that begins as operators do advances as it should if its search for a row does. -/
theorem Progress.proceed_steps {m : Machine σ} {Idle : σ → Prop} {store : Store} {s begun : σ}
    {search : Except QueryError (Option Row) × σ} (shut : Idle s → (m.progress s).Idle)
    (same : m.advance store s = proceed ((m.progress s).begin m.name).1 begun search)
    (given : m.progress begun = { m.progress s with current := none }) (idle : Idle s → Idle begun)
    (searched : (m.progress s).phase = .running → (m.progress search.2).Settled search.1) :
    Steps m Idle store s := by
  rcases (m.progress s).begin_cases m.name with ⟨phase, begins⟩ | ⟨phase, begins⟩ | ⟨phase, begins⟩ <;>
    rw [begins] at same <;> constructor <;> rw [same]
  · exact fun _ => rfl
  · exact idle
  · intro exhausted
    cases phase.symm.trans exhausted
  · intro up
    rw [isOpen, phase] at up
    cases up
  · intro closed
    cases phase.symm.trans closed
  · exact idle
  · exact fun _ => rfl
  · have rests : (m.progress begun).Settled (.ok none) := by
      rw [given]
      exact .ended phase rfl
    exact fun _ => rests
  · intro closed
    cases phase.symm.trans closed
  · intro rests
    cases phase.symm.trans (shut rests).closed
  · intro exhausted
    cases phase.symm.trans exhausted
  · exact fun _ => searched phase

namespace Feed

def Idle (s : State) : Prop := s.progress.Idle

theorem obeys (items : List FeedItem) : Obeys (machine items) Idle where
  fresh := ⟨rfl, rfl⟩
  close s := ⟨rfl, rfl⟩
  idle idle := idle
  refused _ _ up := launch_open up
  failed idle failed := launch_eq_error failed ▸ idle
  opened opened := launch_eq_ok opened ▸ rfl
  advance store s := by
    refine @Progress.proceed_steps _ _ Idle store s
      { s with progress := { s.progress with current := none } } _ id rfl rfl
      (fun idle => ⟨idle.closed, rfl⟩) fun running => ?_
    rcases s.items with _ | ⟨_ | _, _⟩
    · exact .ended rfl rfl
    · exact .failed running rfl
    · exact .row running rfl

end Feed

namespace Scan

/-- Nothing is left of the traversal. -/
structure Idle (s : State) : Prop where
  progress : s.progress.Idle
  traversal : s.traversal = none

variable {name label : String} {store : Store} {s : State}

theorem pull_settled (running : s.progress.phase = .running) (spent : s.progress.current = none) :
    (pull label store s).2.progress.Settled (pull label store s).1 := by
  simp only [pull]
  split
  · exact .failed running spent
  split
  · exact .failed running spent
  · exact .ended rfl rfl
  split
  · exact .failed running spent
  · exact .row running rfl

theorem obeys {traversed : Store → Bindings → Except QueryError Traversal} :
    Obeys (traversing name label traversed) Idle where
  fresh := ⟨⟨rfl, rfl⟩, rfl⟩
  close s := ⟨⟨rfl, rfl⟩, rfl⟩
  idle idle := idle.progress
  refused _ _ up := launch_open up
  failed idle failed := launch_eq_error failed ▸ idle
  opened opened := by
    obtain ⟨_, _, rfl⟩ := launch_eq_ok opened
    rfl
  advance store s := Progress.proceed_steps (fun idle => idle.progress) rfl rfl
    (fun idle => ⟨⟨idle.progress.closed, rfl⟩, idle.traversal⟩) fun running => pull_settled running rfl

end Scan

namespace Select

variable {m : Machine σ} {InputIdle : σ → Prop}

/-- Nothing is left of the row dropped last. -/
structure Idle (InputIdle : σ → Prop) (s : State σ) : Prop where
  progress : s.progress.Idle
  input : InputIdle s.input
  dropped : s.dropped = none

variable {target : RowType} {predicate : Predicate} {store : Store} {s : State σ}

theorem pull_settled (fuel : Nat) (running : s.progress.phase = .running)
    (spent : s.progress.current = none) :
    (pull target predicate m store fuel s).2.progress.Settled
      (pull target predicate m store fuel s).1 := by
  induction fuel generalizing s with
  | zero => exact .failed running spent
  | succ fuel ih =>
    simp only [pull]
    split
    · exact .failed running spent
    · exact .ended rfl rfl
    split
    · exact .failed running spent
    · exact .row running rfl
    · exact ih running spent

theorem obeys (input : Obeys m InputIdle) : Obeys (machine target predicate m) (Idle InputIdle) where
  fresh := ⟨⟨rfl, rfl⟩, input.fresh, rfl⟩
  close s := ⟨⟨rfl, rfl⟩, input.close s.input, rfl⟩
  idle idle := idle.progress
  refused store bindings up :=
    (launch_eq m store bindings _).trans (Progress.openOver_open name up)
  failed idle failed := by
    rcases Progress.openOver_eq_error ((launch_eq ..).symm.trans failed) with rfl | ⟨below, refused, rfl⟩
    · exact idle
    · exact ⟨idle.progress, input.failed idle.input refused, idle.dropped⟩
  opened opened := by
    obtain ⟨_, _, rfl⟩ := of_launch opened
    rfl
  advance store s := Progress.proceed_steps (fun idle => idle.progress) rfl rfl
    (fun idle => ⟨⟨idle.progress.closed, rfl⟩, idle.input, idle.dropped⟩) fun running =>
      pull_settled _ running rfl

end Select

namespace Flatten

variable {m : Machine σ} {InputIdle : σ → Prop}

/-- No parent is in sight and no row is ready. -/
structure Idle (InputIdle : σ → Prop) (s : State σ) : Prop where
  progress : s.progress.Idle
  input : InputIdle s.input
  lookback : s.lookback = .noParent
  output : s.output = []

variable {parentType childType : RowType} {store : Store} {s : State σ}

theorem pull_settled (fuel : Nat) (running : s.progress.phase = .running)
    (spent : s.progress.current = none) :
    (pull parentType childType m store fuel s).2.progress.Settled
      (pull parentType childType m store fuel s).1 := by
  induction fuel generalizing s with
  | zero => exact .failed running spent
  | succ fuel ih =>
    simp only [pull]
    split
    · exact .row running rfl
    split
    · exact .ended rfl rfl
    split
    · exact .failed running spent
    · exact ih running spent
    · exact ih running spent

theorem obeys (input : Obeys m InputIdle) :
    Obeys (machine parentType childType m) (Idle InputIdle) where
  fresh := ⟨⟨rfl, rfl⟩, input.fresh, rfl, rfl⟩
  close s := ⟨⟨rfl, rfl⟩, input.close s.input, rfl, rfl⟩
  idle idle := idle.progress
  refused store bindings up :=
    (launch_eq m store bindings _).trans (Progress.openOver_open name up)
  failed idle failed := by
    rcases Progress.openOver_eq_error ((launch_eq ..).symm.trans failed) with rfl | ⟨below, refused, rfl⟩
    · exact idle
    · exact ⟨idle.progress, input.failed idle.input refused, idle.lookback, idle.output⟩
  opened opened := by
    obtain ⟨_, _, rfl⟩ := of_launch opened
    rfl
  advance store s := Progress.proceed_steps (fun idle => idle.progress) rfl rfl
    (fun idle => ⟨⟨idle.progress.closed, rfl⟩, idle.input, idle.lookback, idle.output⟩) fun running =>
      pull_settled _ running rfl

end Flatten

namespace IndexLookup

variable {m : Machine σ} {InputIdle : σ → Prop}

/-- No row is ready and no branch is open. -/
structure Idle (InputIdle : σ → Prop) (s : State σ) : Prop where
  progress : s.progress.Idle
  input : InputIdle s.input
  pending : s.pending = []
  branch : s.branch = none

variable {lookup : IndexLookup} {store : Store} {s : State σ}

theorem nextEntry_settled (running : s.progress.phase = .running) (spent : s.progress.current = none) :
    (nextEntry lookup m store s).2.progress.Settled (nextEntry lookup m store s).1 := by
  simp only [nextEntry]
  split
  · exact .failed running spent
  · exact .ended rfl rfl
  split
  · exact .failed running spent
  split
  · exact .failed running spent
  · simp only [emitFirst]
    split <;> exact .row running rfl

theorem pull_settled (running : s.progress.phase = .running) (spent : s.progress.current = none) :
    (pull lookup m store s).2.progress.Settled (pull lookup m store s).1 := by
  simp only [pull]
  split
  · exact .row running rfl
  split
  · exact nextEntry_settled running spent
  split
  · exact .failed running spent
  · exact nextEntry_settled running spent
  split
  · exact .failed running spent
  · exact .row running rfl

theorem obeys (input : Obeys m InputIdle) : Obeys (machine lookup m) (Idle InputIdle) where
  fresh := ⟨⟨rfl, rfl⟩, input.fresh, rfl, rfl⟩
  close s := ⟨⟨rfl, rfl⟩, input.close s.input, rfl, rfl⟩
  idle idle := idle.progress
  refused store bindings up :=
    (launch_eq m store bindings _).trans (Progress.openOver_open name up)
  failed idle failed := by
    rcases Progress.openOver_eq_error ((launch_eq ..).symm.trans failed) with rfl | ⟨below, refused, rfl⟩
    · exact idle
    · exact ⟨idle.progress, input.failed idle.input refused, idle.pending, idle.branch⟩
  opened opened := by
    obtain ⟨_, _, rfl⟩ := of_launch opened
    rfl
  advance store s := Progress.proceed_steps (fun idle => idle.progress) rfl rfl
    (fun idle => ⟨⟨idle.progress.closed, rfl⟩, idle.input, idle.pending, idle.branch⟩) fun running =>
      pull_settled running rfl

end IndexLookup

/-- Whether all operators of a tree are closed and hold nothing. -/
def Idle : (p : Pipeline) → p.State → Prop
  | feed _ => Feed.Idle
  | groupScan _ => Scan.Idle
  | indexScan _ => Scan.Idle
  | select _ _ input => Select.Idle input.Idle
  | flatten _ _ input => Flatten.Idle input.Idle
  | indexLookup _ input => IndexLookup.Idle input.Idle

theorem obeys (p : Pipeline) : Obeys p.machine p.Idle := by
  induction p with
  | feed items => exact Feed.obeys items
  | groupScan group => exact Scan.obeys
  | indexScan scan => exact Scan.obeys
  | select target predicate input ih => exact Select.obeys ih
  | flatten parent child input ih => exact Flatten.obeys ih
  | indexLookup lookup input ih => exact IndexLookup.obeys ih

end Pipeline

namespace Run

/-- What may be asked of a tree. -/
inductive Request where
  | launch (store : Store) (bindings : Bindings)
  | advance (store : Store)
  | currentRow
  | close

/-- What a tree answers. `launched` also tells whether it was open before. -/
inductive Reply where
  | launched (wasOpen : Bool) (answer : Except QueryError Unit)
  | advanced (answer : Except QueryError (Option Row))
  | shown (answer : Except QueryError Row)
  | closed (answer : Except QueryError Unit)

def reply (r : Run) : Request → Reply × Run
  | .launch store bindings =>
    let (answer, r') := r.launch store bindings
    (.launched r.phase.isOpen answer, r')
  | .advance store =>
    let (answer, r') := r.advance store
    (.advanced answer, r')
  | .currentRow => (.shown r.currentRow, r)
  | .close =>
    let (answer, r') := r.close
    (.closed answer, r')

def replies (r : Run) : List Request → List Reply × Run
  | [] => ([], r)
  | request :: rest =>
    let (reply, r) := r.reply request
    let (replies, r) := r.replies rest
    (reply :: replies, r)

/-- Whether a reply has to do with the current row: looking at it has not, nor has opening a tree that was
open. -/
def Reply.counts : Reply → Bool
  | launched wasOpen _ => !wasOpen
  | shown _ => false
  | _ => true

/-- The row that a tree stands on after a reply. -/
def Reply.row? : Reply → Option Row
  | advanced (.ok row) => row
  | _ => none

/-- The last reply that has to do with the current row. -/
def latest? (replies : List Reply) : Option Reply := (replies.filter Reply.counts).getLast?

/-- Whether all operators of a tree are closed and hold nothing. -/
def Idle (r : Run) : Prop := r.pipeline.Idle r.state

/-- What holds of a tree whatever was asked of it. -/
structure Stands (r : Run) (latest : Option Reply) : Prop where
  current : r.progress.current = latest.bind Reply.row?
  idle (closed : r.phase = .closed) : r.Idle

variable {r r' : Run} {latest : Option Reply}

theorem Idle.stands (idle : r.Idle) (none : latest.bind Reply.row? = none) : r.Stands latest :=
  ⟨(r.pipeline.obeys.idle idle).spent.trans none.symm, fun _ => idle⟩

theorem stands_fresh (p : Pipeline) : (fresh p).Stands none :=
  Idle.stands (p.obeys.fresh : (fresh p).Idle) rfl

theorem isOpen_of_ne_closed (up : r.phase ≠ .closed) : r.phase.isOpen = true := by
  cases phase : r.phase with
  | closed => exact absurd phase up
  | running | exhausted => rfl

/-- An open tree refuses to be opened and stays as it is. -/
theorem reply_launch_open (store : Store) (bindings : Bindings) (up : r.phase.isOpen = true) :
    r.reply (.launch store bindings) =
      (.launched true (.error (.usage (.openedTwice r.name))), r) := by
  have refused : r.launch store bindings = (.error (.usage (.openedTwice r.name)), r) := by
    rw [launch, r.pipeline.obeys.refused store bindings up]
    rfl
  rw [reply, refused, up]

/-- Opening leaves the same tree. -/
theorem launch_eq_mk {store : Store} {bindings : Bindings} {answer : Except QueryError Unit}
    (launched : r.launch store bindings = (answer, r')) :
    ∃ s', r.pipeline.machine.launch store bindings r.state = (answer, s') ∧ r' = ⟨r.pipeline, s'⟩ := by
  rcases below : r.pipeline.machine.launch store bindings r.state with ⟨_, s'⟩
  rw [launch, below] at launched
  cases launched
  exact ⟨s', rfl, rfl⟩

theorem launch_started {store : Store} {bindings : Bindings}
    (opened : r.launch store bindings = (.ok (), r')) : r'.progress = r.progress.start := by
  obtain ⟨s', launched, rfl⟩ := launch_eq_mk opened
  exact r.pipeline.obeys.opened launched

/-- A tree that holds nothing holds nothing after it failed to open, and has read nothing. -/
theorem Idle.of_launch_error {store : Store} {bindings : Bindings} {e : QueryError} (idle : r.Idle)
    (failed : r.launch store bindings = (.error e, r')) : r'.Idle ∧ r'.counters = r.counters := by
  obtain ⟨s', launched, rfl⟩ := launch_eq_mk failed
  have quiet := r.pipeline.quiet.launch store bindings r.state
  rw [launched] at quiet
  exact ⟨r.pipeline.obeys.failed idle launched, quiet⟩

theorem advance_closed (store : Store) (closed : r.phase = .closed) :
    (r.advance store).1 = .error (.usage (.advancedClosed r.name)) :=
  (r.pipeline.obeys.advance store r.state).closed closed

theorem advance_idle (store : Store) (idle : r.Idle) : (r.advance store).2.Idle :=
  (r.pipeline.obeys.advance store r.state).idle idle

theorem advance_settled (store : Store) (up : r.phase.isOpen = true) :
    (r.advance store).2.progress.Settled (r.advance store).1 :=
  (r.pipeline.obeys.advance store r.state).settled up

theorem advance_exhausted (store : Store) (exhausted : r.phase = .exhausted) :
    (r.advance store).1 = .ok none := (r.pipeline.obeys.advance store r.state).ended exhausted

/-- A tree that gives no row is at its end. -/
theorem exhausted_of_advance {store : Store} (ended : (r.advance store).1 = .ok none) :
    (r.advance store).2.phase = .exhausted := by
  by_cases closed : r.phase = .closed
  · rw [advance_closed store closed] at ended
    cases ended
  · have settled := advance_settled store (isOpen_of_ne_closed closed)
    rw [ended] at settled
    cases settled with
    | ended exhausted _ => exact exhausted

theorem close_idle (r : Run) : r.close.2.Idle := r.pipeline.obeys.close r.state

/-- Each reply leaves the current row to be told from the last one that counts. -/
theorem Stands.reply (stands : r.Stands latest) (request : Request) :
    (r.reply request).2.Stands
      (if (r.reply request).1.counts then some (r.reply request).1 else latest) := by
  cases request with
  | launch store bindings =>
    by_cases closed : r.phase = .closed
    · rcases opened : r.launch store bindings with ⟨e | _, r'⟩ <;> simp only [Run.reply, opened, closed]
      · exact ((stands.idle closed).of_launch_error opened).1.stands rfl
      · have started := launch_started opened
        refine ⟨by rw [started]; rfl, fun closed => ?_⟩
        rw [phase, started] at closed
        cases closed
    · rw [reply_launch_open store bindings (isOpen_of_ne_closed closed)]
      exact stands
  | advance store =>
    show (r.advance store).2.Stands (some (.advanced (r.advance store).1))
    by_cases closed : r.phase = .closed
    · exact (advance_idle store (stands.idle closed)).stands
        (by rw [advance_closed store closed]; rfl)
    · have settled := advance_settled store (isOpen_of_ne_closed closed)
      generalize (r.advance store).1 = answer at settled ⊢
      cases settled with
      | row running current =>
        exact ⟨current, fun closed => absurd (running.symm.trans closed) nofun⟩
      | ended exhausted spent =>
        exact ⟨spent, fun closed => absurd (exhausted.symm.trans closed) nofun⟩
      | failed running spent => exact ⟨spent, fun closed => absurd (running.symm.trans closed) nofun⟩
  | currentRow => exact stands
  | close => exact (close_idle r).stands rfl

theorem latest?_cons (reply : Reply) (replies : List Reply) (latest : Option Reply) :
    (latest? (reply :: replies)).or latest =
      (latest? replies).or (if reply.counts then some reply else latest) := by
  rw [latest?, latest?, List.filter_cons]
  cases reply.counts with
  | false => rfl
  | true =>
    rw [if_pos rfl, if_pos rfl, List.getLast?_cons]
    cases (replies.filter Reply.counts).getLast? <;> rfl

theorem replies_cons (r : Run) (request : Request) (rest : List Request) :
    r.replies (request :: rest) =
      ((r.reply request).1 :: ((r.reply request).2.replies rest).1,
        ((r.reply request).2.replies rest).2) := rfl

theorem Stands.replies (stands : r.Stands latest) (requests : List Request) :
    (r.replies requests).2.Stands ((latest? (r.replies requests).1).or latest) := by
  induction requests generalizing r latest with
  | nil => exact stands
  | cons request rest ih =>
    rw [replies_cons, latest?_cons]
    exact ih (stands.reply request)

/-- From its end on a tree gives no row until it is closed. -/
theorem replies_exhausted (exhausted : r.phase = .exhausted) {requests : List Request}
    (kept : ∀ answer, .closed answer ∉ (r.replies requests).1) {answer : Except QueryError (Option Row)}
    (member : .advanced answer ∈ (r.replies requests).1) : answer = .ok none := by
  induction requests generalizing r with
  | nil => cases member
  | cons request rest ih =>
    rw [replies_cons] at member
    have kept (answer : Except QueryError Unit) : .closed answer ≠ (r.reply request).1 ∧
        .closed answer ∉ ((r.reply request).2.replies rest).1 :=
      not_or.1 fun held => kept answer (List.mem_cons.2 held)
    cases request with
    | launch store bindings =>
      have up : r.phase.isOpen = true := by
        rw [exhausted]
        rfl
      rw [reply_launch_open store bindings up] at kept member
      exact ih exhausted (fun answer => (kept answer).2) ((List.mem_cons.1 member).resolve_left nofun)
    | advance store =>
      have ended := advance_exhausted store exhausted
      rcases List.mem_cons.1 member with same | member
      · exact (Reply.advanced.inj same).trans ended
      · exact ih (exhausted_of_advance ended) (fun answer => (kept answer).2) member
    | currentRow =>
      exact ih exhausted (fun answer => (kept answer).2) ((List.mem_cons.1 member).resolve_left nofun)
    | close => exact absurd rfl (kept r.close.1).1

theorem replies_after_end {requests : List Request} {before after : List Reply}
    (cut : (r.replies requests).1 = before ++ .advanced (.ok none) :: after)
    (kept : ∀ answer, .closed answer ∉ after) {answer : Except QueryError (Option Row)}
    (member : .advanced answer ∈ after) : answer = .ok none := by
  induction requests generalizing r before with
  | nil => exact absurd cut.symm (List.append_ne_nil_of_right_ne_nil _ (List.cons_ne_nil _ _))
  | cons request rest ih =>
    rw [replies_cons] at cut
    cases before with
    | cons reply before => exact ih (List.cons.inj cut).2
    | nil =>
      obtain ⟨ended, rfl⟩ := List.cons.inj cut
      cases request with
      | launch store bindings => cases ended
      | advance store =>
        exact replies_exhausted (exhausted_of_advance (Reply.advanced.inj ended)) kept member
      | currentRow => cases ended
      | close => cases ended

/-- Whatever was asked of a tree, it has a current row if the last call apart from looks at the row and
refusals to open was an advance to that row; from its end on it gives no row until it is closed; it is not
advanced while it is closed; it refuses to be opened while it is open and goes on as it was; a closed tree
that fails to open holds nothing and has read nothing; and closing succeeds, after which it holds nothing. -/
theorem replies_by_protocol {p : Pipeline} {requests : List Request} {replies : List Reply} {r : Run}
    (used : (fresh p).replies requests = (replies, r)) :
    (∀ row, r.currentRow = .ok row ↔ latest? replies = some (.advanced (.ok (some row)))) ∧
    (∀ before after, replies = before ++ .advanced (.ok none) :: after →
      (∀ answer, .closed answer ∉ after) → ∀ answer, .advanced answer ∈ after → answer = .ok none) ∧
    (∀ store, r.phase = .closed →
      (r.reply (.advance store)).1 = .advanced (.error (.usage (.advancedClosed r.name)))) ∧
    (∀ store bindings, r.phase.isOpen = true → r.reply (.launch store bindings) =
      (.launched true (.error (.usage (.openedTwice r.name))), r)) ∧
    (∀ store bindings error r', r.phase = .closed →
      r.reply (.launch store bindings) = (.launched false (.error error), r') →
        r'.Idle ∧ r'.counters = r.counters) ∧
    ∃ r', r.reply .close = (.closed (.ok ()), r') ∧ r'.Idle := by
  have stands := (stands_fresh p).replies requests
  rw [used, Option.or_none] at stands
  refine ⟨fun row => ?_, fun before after cut kept answer member => ?_, fun store closed => ?_,
    fun store bindings up => reply_launch_open store bindings up,
    fun store bindings error r' closed failed => ?_, r.close.2, ?_, close_idle r⟩
  · rw [currentRow, Progress.row, stands.current]
    rcases latest? replies with _ | (_ | (_ | _ | _) | _ | _) <;> simp [Reply.row?]
  · subst cut
    exact replies_after_end (congrArg Prod.fst used) kept member
  · exact congrArg Reply.advanced (advance_closed store closed)
  · rcases launched : r.launch store bindings with ⟨answer, _⟩
    rw [reply, launched, closed] at failed
    cases failed
    exact (stands.idle closed).of_launch_error launched
  · exact Prod.ext (congrArg Reply.closed r.closes) rfl

/-- A customer without orders, joined with none. -/
def shopJoin : Pipeline := .flatten shopCustomer.rowType shopOrder.rowType (.groupScan ⟨1⟩)

def shopLonely : Store := (Store.fresh shop .standard 1).run [.insert ⟨1⟩ [.int 7, .text "a"]]

/-- The tree is advanced before it is opened, and opened again while it is open. -/
def shopRequests : List Request :=
  [.advance shopLonely, .launch shopLonely .empty, .advance shopLonely, .launch shopLonely .empty,
    .currentRow]

theorem replies_by_protocol_shop : ∃ replies r, (fresh shopJoin).replies shopRequests = (replies, r) ∧
    latest? replies = some (.advanced (.ok (some
      ⟨shopCustomer.rowType, [.int 7, .text "a"], some (.ofSegments [(⟨1⟩, .int 7)])⟩))) ∧
    r.currentRow =
      .ok ⟨shopCustomer.rowType, [.int 7, .text "a"], some (.ofSegments [(⟨1⟩, .int 7)])⟩ ∧
    r.reply (.launch shopLonely .empty) =
      (.launched true (.error (.usage (.openedTwice r.name))), r) ∧
    ∃ r', r.reply .close = (.closed (.ok ()), r') ∧ r'.Idle := by
  obtain ⟨current, _, _, refused, _, closed⟩ :=
    @replies_by_protocol shopJoin shopRequests _ _ rfl
  exact ⟨_, _, rfl, rfl, (current _).2 rfl, refused shopLonely .empty rfl, closed⟩

end Run

end Interleave
