import Interleave.Proofs.Pipeline.Remaining
import Interleave.Proofs.Plan.Lookups

/-!
Runs do not depend on history. Main statement: an execution that was bound, opened, advanced, read and
closed in any order collects, once it is closed, what a new execution of its plan collects with the same
bindings; and from there it counts as many rows and gives them one by one when it is opened and advanced.
-/

namespace Interleave

open Pipeline

/-- What may be asked of an execution. -/
inductive Call where
  | bind (key : BindingKey) (binding : Binding)
  | launch
  | advance
  | next
  | currentRow
  | collect
  | count
  | close

namespace Execution

/-- An execution after a call, whatever the call answered. -/
def after (store : Store) (e : Execution) : Call → Execution
  | .bind key binding =>
    match e.bind key binding with
    | .ok e => e
    | .error _ => e
  | .launch => (e.launch store).2
  | .advance => (e.advance store).2
  | .next => (e.next store).2
  | .currentRow => e
  | .collect => (e.collect store).2
  | .count => (e.count store).2
  | .close => e.close.2

def afterAll (store : Store) (e : Execution) (calls : List Call) : Execution :=
  calls.foldl (after store) e

/-- Whether an open execution gives certain rows one by one when it is advanced, and is over then or
fails. -/
inductive Gives (store : Store) : Execution → List Row → Option QueryError → Prop where
  | done {e e' : Execution} (ended : e.advance store = (.ok false, e')) : Gives store e [] none
  | failed {e e' : Execution} {error : QueryError} (failure : e.advance store = (.error error, e')) :
      Gives store e [] (some error)
  | row {e e' : Execution} {row : Row} {rows : List Row} {ending : Option QueryError}
      (next : e.advance store = (.ok true, e')) (current : e'.currentRow = .ok row)
      (others : Gives store e' rows ending) : Gives store e (row :: rows) ending

/-- Whether a closed execution, opened and advanced to its end, gives the rows of an answer one by one, or
comes to the error of an answer. -/
def Replays (store : Store) (e : Execution) : Except QueryError (List Row) → Prop
  | .ok rows => ∃ opened, e.launch store = (.ok (), opened) ∧ Gives store opened rows none
  | .error error => (∃ refused, e.launch store = (.error error, refused)) ∨
      ∃ opened rows, e.launch store = (.ok (), opened) ∧ Gives store opened rows (some error)

end Execution

namespace Run

variable {p : Pipeline} {s s' : p.State} {store : Store}

theorem collect_pipeline (store : Store) (fuel : Nat) (s : p.State) :
    ∃ s', (Run.collect store fuel ⟨p, s⟩).2.2 = ⟨p, s'⟩ := by
  induction fuel generalizing s with
  | zero => exact ⟨s, rfl⟩
  | succ fuel ih =>
    simp only [Run.collect, Run.advance]
    split
    · exact ⟨_, rfl⟩
    · exact ⟨_, rfl⟩
    · exact ih _

theorem collect_alike (alike : p.Alike s s') (store : Store) (fuel : Nat) :
    (Run.collect store fuel ⟨p, s⟩).1 = (Run.collect store fuel ⟨p, s'⟩).1 ∧
      (Run.collect store fuel ⟨p, s⟩).2.1 = (Run.collect store fuel ⟨p, s'⟩).2.1 := by
  induction fuel generalizing s s' with
  | zero => exact ⟨rfl, rfl⟩
  | succ fuel ih =>
    obtain ⟨answer, below, below', one, other, alike⟩ := (p.renews.advance store alike).elim
    simp only [Run.collect, Run.advance, one, other]
    rcases answer with _ | _ | row
    · exact ⟨rfl, rfl⟩
    · exact ⟨rfl, rfl⟩
    · obtain ⟨rows, ending⟩ := ih alike
      exact ⟨congrArg (row :: ·) rows, ending⟩

end Run

namespace Execution

variable {p : Pipeline} {store : Store} {bindings bindings' : Bindings} {e e' : Execution}
  {s s' : p.State} {config : Config} {produced : Nat} {up : Bool}

/-- What collecting answers after certain rows and an error, if there is one. -/
def answer (rows : List Row) : Option QueryError → Except QueryError (List Row)
  | none => .ok rows
  | some error => .error error

/-- Closing an execution succeeds. -/
theorem closes (e : Execution) : e.close.1 = .ok () := e.run.closes

/-- A tree is tallied to the end, or the error, up to which it would be collected. -/
theorem tally_of_collect {fuel counted : Nat} {r r' : Run} {rows : List Row} {ending : Option QueryError}
    (collected : Run.collect store fuel r = (rows, ending, r')) :
    tally store fuel counted ⟨r, bindings, config, produced⟩ =
      ((answer rows ending).map (counted + ·.length), ⟨r', bindings, config, produced + rows.length⟩) := by
  -- Both loops advance the same tree with the same fuel; the counts so far grow with each row.
  induction fuel generalizing r rows counted produced with
  | zero =>
    cases collected
    rfl
  | succ fuel ih =>
    rcases answered : r.advance store with ⟨error | _ | row, t⟩ <;>
      simp only [Run.collect, answered] at collected <;>
      simp only [tally, advance, next, answered]
    · cases collected
      rfl
    · cases collected
      rfl
    · rcases rest : Run.collect store fuel t with ⟨others, ending, last⟩
      rw [rest] at collected
      cases collected
      show tally store fuel (counted + 1) ⟨t, bindings, config, produced + 1⟩ = _
      rw [ih rest]
      cases ending <;> simp only [answer, Except.map, List.length_cons, Nat.add_assoc, Nat.add_comm 1]

/-- An execution counts the rows that it would collect, and is left the same. -/
theorem count_eq (e : Execution) (store : Store) :
    e.count store = ((e.collect store).1.map List.length, (e.collect store).2) := by
  rw [count, collect]
  rcases e.launch store with ⟨error | _, ⟨r, bindings, config, produced⟩⟩
  · rfl
  · rcases drained : r.drain store with ⟨rows, ending, last⟩
    have tallied := @tally_of_collect store bindings config produced _ 0 r last rows ending drained
    simp only [tallied, drain, drained]
    cases ending with
    | none => simp only [answer, Except.map, closes, Nat.zero_add]
    | some error => rfl

/-- Whether an execution runs a tree with certain bindings, with all operators open or all closed. -/
def Runs (p : Pipeline) (bindings : Bindings) (up : Bool) (e : Execution) : Prop :=
  ∃ s config produced, e = ⟨⟨p, s⟩, bindings, config, produced⟩ ∧ p.Stands up s

theorem Runs.isOpen (runs : Runs p bindings up e) : e.phase.isOpen = up := by
  obtain ⟨s, config, produced, rfl, stands⟩ := runs
  exact p.levelled.root stands

section Closed

variable (stands : p.Stands false s)
include stands

/-- A closed execution opens if its tree does. -/
theorem launch_eq : Execution.launch ⟨⟨p, s⟩, bindings, config, produced⟩ store =
    match p.machine.launch store bindings s with
    | (.error error, failed) =>
      (.error error, ⟨⟨p, (p.machine.close failed).2⟩, bindings, config, produced⟩)
    | (.ok (), opened) => (.ok (), ⟨⟨p, opened⟩, bindings, config, produced⟩) := by
  have closed : (Execution.phase ⟨⟨p, s⟩, bindings, config, produced⟩).isOpen = false :=
    p.levelled.root stands
  rw [launch, if_neg (by rw [closed]; exact Bool.false_ne_true)]
  rcases launched : p.machine.launch store bindings s with ⟨_ | _, _⟩ <;>
    simp only [Run.launch, launched, Run.close]

/-- A closed execution collects what its tree yields once it is open. -/
theorem collect_eq_answer : (Execution.collect ⟨⟨p, s⟩, bindings, config, produced⟩ store).1 =
    match p.machine.launch store bindings s with
    | (.error error, _) => .error error
    | (.ok (), opened) =>
      answer (Run.drain ⟨p, opened⟩ store).1 (Run.drain ⟨p, opened⟩ store).2.1 := by
  rw [collect, launch_eq stands]
  rcases p.machine.launch store bindings s with ⟨error | _, opened⟩
  · rfl
  · simp only [drain]
    rcases Run.drain ⟨p, opened⟩ store with ⟨rows, _ | error, r⟩
    · simp only [closes]
      rfl
    · rfl

end Closed

theorem create_eq_ok {c : Catalog} {plan : Plan} (made : create c plan config = .ok e) :
    ∃ p, plan.build c = .ok p ∧ e = ⟨.fresh p, .empty, config, 0⟩ := by
  obtain ⟨_, _, made⟩ := bind_eq_ok made
  obtain ⟨p, built, made⟩ := bind_eq_ok made
  exact ⟨p, built, (Except.ok.inj made).symm⟩

theorem runs_create {c : Catalog} {plan : Plan} (made : create c plan config = .ok e) :
    ∃ p, plan.build c = .ok p ∧ Runs p .empty false e := by
  obtain ⟨p, built, rfl⟩ := create_eq_ok made
  exact ⟨p, built, _, config, 0, rfl, p.levelled.fresh⟩

/-- Opening leaves all operators open, or all closed if it fails. -/
theorem Runs.launch (runs : Runs p bindings up e) (store : Store) :
    ∃ up, Runs p bindings up (e.launch store).2 := by
  cases up with
  | true => exact ⟨true, by rwa [Execution.launch, if_pos runs.isOpen]⟩
  | false =>
    obtain ⟨s, config, produced, rfl, stands⟩ := runs
    rw [launch_eq stands]
    rcases launched : p.machine.launch store bindings s with ⟨error | _, s'⟩
    · exact ⟨false, _, config, produced, rfl, p.levelled.close s'⟩
    · exact ⟨true, s', config, produced, rfl, p.levelled.launch launched⟩

theorem Runs.next (runs : Runs p bindings up e) (store : Store) :
    Runs p bindings up (e.next store).2 := by
  obtain ⟨s, config, produced, rfl, stands⟩ := runs
  have stands := p.levelled.advance store stands
  simp only [Execution.next, Run.advance]
  split <;> exact ⟨_, config, _, rfl, stands⟩

theorem Runs.close (runs : Runs p bindings up e) : Runs p bindings false e.close.2 := by
  obtain ⟨s, config, produced, rfl, _⟩ := runs
  exact ⟨(p.machine.close s).2, config, produced, rfl, p.levelled.close s⟩

/-- An execution that has collected is closed again, unless it refused because it was open. -/
theorem Runs.collect (runs : Runs p bindings up e) (store : Store) :
    Runs p bindings up (e.collect store).2 := by
  cases up with
  | true => rwa [Execution.collect, Execution.launch, if_pos runs.isOpen]
  | false =>
    obtain ⟨s, config, produced, rfl, stands⟩ := runs
    rw [Execution.collect, launch_eq stands]
    rcases p.machine.launch store bindings s with ⟨error | _, opened⟩
    · exact ⟨_, config, produced, rfl, p.levelled.close opened⟩
    · obtain ⟨last, left⟩ := Run.collect_pipeline store (Run.ahead store ⟨p, opened⟩ + 1) opened
      rcases drained : Run.drain ⟨p, opened⟩ store with ⟨rows, ending, r⟩
      obtain rfl : r = ⟨p, last⟩ := by rw [← left, ← Run.drain, drained]
      simp only [drain, drained]
      cases ending <;> exact ⟨_, config, _, rfl, p.levelled.close last⟩

theorem Runs.count (runs : Runs p bindings up e) (store : Store) :
    Runs p bindings up (e.count store).2 := by
  rw [count_eq]
  exact runs.collect store

theorem Runs.bind (runs : Runs p bindings false e) (store : Store) (key : BindingKey)
    (binding : Binding) :
    Runs p (bindings.set key binding) false (e.after store (.bind key binding)) := by
  rw [Execution.after, Execution.bind, if_neg (by rw [runs.isOpen]; exact Bool.false_ne_true)]
  obtain ⟨s, config, produced, rfl, stands⟩ := runs
  exact ⟨s, config, produced, rfl, stands⟩

/-- Whatever is asked of an execution, its operators stay open together. -/
theorem Runs.after (runs : Runs p bindings up e) (store : Store) (call : Call) :
    ∃ bindings up, Runs p bindings up (e.after store call) := by
  cases call with
  | bind key binding =>
    cases up with
    | true =>
      refine ⟨bindings, true, ?_⟩
      rwa [Execution.after, Execution.bind, if_pos runs.isOpen]
    | false => exact ⟨_, false, runs.bind store key binding⟩
  | launch => exact ⟨bindings, runs.launch store⟩
  | advance => exact ⟨bindings, up, runs.next store⟩
  | next => exact ⟨bindings, up, runs.next store⟩
  | currentRow => exact ⟨bindings, up, runs⟩
  | collect => exact ⟨bindings, up, runs.collect store⟩
  | count => exact ⟨bindings, up, runs.count store⟩
  | close => exact ⟨bindings, false, runs.close⟩

theorem Runs.afterAll (runs : Runs p bindings up e) (store : Store) (calls : List Call) :
    ∃ bindings up, Runs p bindings up (e.afterAll store calls) := by
  induction calls generalizing e bindings up with
  | nil => exact ⟨bindings, up, runs⟩
  | cons call rest ih =>
    obtain ⟨_, _, runs⟩ := runs.after store call
    exact ih runs

/-- Two closed executions of a tree collect the same with the same bindings. -/
theorem Runs.collect_same (runs : Runs p bindings false e) (runs' : Runs p bindings' false e')
    (same : bindings.Same bindings') : (e.collect store).1 = (e'.collect store).1 := by
  obtain ⟨s, config, produced, rfl, stands⟩ := runs
  obtain ⟨s', config', produced', rfl, stands'⟩ := runs'
  rw [collect_eq_answer stands, collect_eq_answer stands']
  rcases (p.renews.launch store stands stands' same).elim with
    ⟨error, _, _, refused, refused'⟩ | ⟨opened, opened', launched, launched', alike⟩
  · rw [refused, refused']
  · have ahead : Run.ahead store ⟨p, opened⟩ = Run.ahead store ⟨p, opened'⟩ :=
      p.renews.ahead store alike
    obtain ⟨rows, ending⟩ := Run.collect_alike alike store (Run.ahead store ⟨p, opened⟩ + 1)
    simp only [launched, launched', Run.drain, ← ahead, rows, ending]

theorem advance_eq : Execution.advance ⟨⟨p, s⟩, bindings, config, produced⟩ store =
    match p.machine.advance store s with
    | (.error error, t) => (.error error, ⟨⟨p, t⟩, bindings, config, produced⟩)
    | (.ok none, t) => (.ok false, ⟨⟨p, t⟩, bindings, config, produced⟩)
    | (.ok (some _), t) => (.ok true, ⟨⟨p, t⟩, bindings, config, produced + 1⟩) := by
  rcases answered : p.machine.advance store s with ⟨_ | _ | _, t⟩ <;>
    simp only [advance, next, Run.advance, answered] <;> rfl

/-- What a run collects comes out one by one when the execution is advanced. -/
theorem gives_of_collect (ends : store.TraversalsEnd) {n fuel : Nat} (left : p.Left store s n)
    (enough : n < fuel) {rows : List Row} {ending : Option QueryError} {r : Run}
    (collected : Run.collect store fuel ⟨p, s⟩ = (rows, ending, r)) :
    Gives store ⟨⟨p, s⟩, bindings, config, produced⟩ rows ending := by
  induction fuel generalizing s n produced rows with
  | zero => cases enough
  | succ fuel ih =>
    have step := @advance_eq p store bindings s config produced
    rcases answered : p.machine.advance store s with ⟨error | _ | row, t⟩ <;>
      simp only [Run.collect, Run.advance, answered] at collected step
    · cases collected
      exact .failed step
    · cases collected
      exact .done step
    · rcases rest : Run.collect store fuel ⟨p, t⟩ with ⟨rows, ending, r⟩
      rw [rest] at collected
      cases collected
      obtain ⟨k, fewer, left⟩ := (p.dwindles ends).advance left answered
      have others : Gives store ⟨⟨p, t⟩, bindings, config, produced + 1⟩ rows ending :=
        ih left (by omega) rest
      have current : (p.machine.progress t).current = some row := p.presents store s row t answered
      refine .row step ?_ others
      simp only [currentRow, Run.currentRow, Run.progress, Progress.row, current]

/-- A closed execution that is opened and advanced gives what it would collect. -/
theorem Runs.replays (runs : Runs p bindings false e) (ends : store.TraversalsEnd) :
    e.Replays store (e.collect store).1 := by
  obtain ⟨s, config, produced, rfl, stands⟩ := runs
  have opening := @launch_eq p store bindings s config produced stands
  rw [collect_eq_answer stands]
  rcases launched : p.machine.launch store bindings s with ⟨error | _, opened⟩ <;>
    simp only [launched] at opening ⊢
  · exact .inl ⟨_, opening⟩
  · obtain ⟨n, left⟩ := (p.dwindles ends).launch launched
    have enough := Nat.lt_succ_of_le ((p.dwindles ends).ahead left)
    rcases drained : Run.drain ⟨p, opened⟩ store with ⟨rows, ending, r⟩
    have gives := @gives_of_collect p store bindings opened config produced ends n _ left enough
      rows ending r drained
    cases ending with
    | none => exact ⟨_, opening, gives⟩
    | some error => exact .inr ⟨_, rows, opening, gives⟩

/-- Binding leaves a closed execution closed. -/
theorem Runs.rebind (runs : Runs p bindings false e) (store : Store)
    (bound : List (BindingKey × Binding)) :
    ∃ bindings, Runs p bindings false (e.afterAll store (bound.map fun b => .bind b.1 b.2)) := by
  induction bound generalizing e bindings with
  | nil => exact ⟨bindings, runs⟩
  | cons b rest ih => exact ih (runs.bind store b.1 b.2)

theorem Runs.closed (runs : Runs p bindings false e) : e.phase = .closed := by
  have shut := runs.isOpen
  cases phase : e.phase with
  | closed => rfl
  | running | exhausted =>
    rw [phase] at shut
    cases shut

theorem Runs.same (runs : Runs p bindings up e) : e.bindings = bindings := by
  obtain ⟨s, config, produced, rfl, _⟩ := runs
  rfl

/-- Whatever was asked of an execution before it was closed, it collects what a new execution of its plan
collects with the same bindings. From there it counts the rows, and gives them one by one. -/
theorem reruns_like_new {c : Catalog} {plan : Plan} {config config' : Config} {first new : Execution}
    (made : create c plan config = .ok first) (made' : create c plan config' = .ok new)
    {store : Store} {calls : List Call} {bound : List (BindingKey × Binding)} {again fresh : Execution}
    (used : first.afterAll store calls = again) (closed : again.phase = .closed)
    (rebound : new.afterAll store (bound.map fun b => .bind b.1 b.2) = fresh)
    (same : again.bindings.Same fresh.bindings) :
    (again.collect store).1 = (fresh.collect store).1 ∧
      ((again.collect store).2.count store).1 = (fresh.collect store).1.map List.length ∧
      (store.TraversalsEnd →
        (again.collect store).2.Replays store (fresh.collect store).1 ∧
        ((again.collect store).2.count store).2.Replays store (fresh.collect store).1) := by
  obtain ⟨p, built, runs⟩ := runs_create made
  obtain ⟨p', built', runs'⟩ := runs_create made'
  obtain rfl := Except.ok.inj (built.symm.trans built')
  obtain ⟨bindings, up, runs⟩ := runs.afterAll store calls
  obtain ⟨bindings', runs'⟩ := runs'.rebind store bound
  rw [used] at runs
  rw [rebound] at runs'
  rw [runs.same, runs'.same] at same
  obtain rfl : false = up := by rw [← runs.isOpen, closed]; rfl
  have collected := runs.collect store
  have counted : Runs p bindings false ((again.collect store).2.count store).2 :=
    collected.count store
  refine ⟨runs.collect_same runs' same, ?_, fun ends => ⟨?_, ?_⟩⟩
  · rw [count_eq, collected.collect_same runs' same]
  · rw [← collected.collect_same runs' same]
    exact collected.replays ends
  · rw [← counted.collect_same runs' same]
    exact counted.replays ends

/-- Customers from the index with their orders. -/
def shopPlan : Plan :=
  .flatten shopCustomer.rowType shopOrder.rowType (.indexLookup ⟨1⟩ [] .branch (.indexScan Store.shopScan))

/-- A run that is given up after its first row, between two ranges. -/
def shopCalls : List Call :=
  [.bind (.operator 0) (.range (.atLeast ⟨[.text "b"], true⟩)), .launch, .next, .close,
    .bind (.operator 0) (.range (.atLeast ⟨[.text "c"], true⟩))]

theorem reruns_like_new_shop : ∃ first new again fresh,
    create shop shopPlan .standard = .ok first ∧ create shop shopPlan .standard = .ok new ∧
      first.afterAll Store.shopBefore shopCalls = again ∧ again.phase = .closed ∧
      new.afterAll Store.shopBefore
        ([(BindingKey.operator 0, Binding.range (.atLeast ⟨[.text "c"], true⟩))].map
          fun b => .bind b.1 b.2) = fresh ∧
      again.bindings.Same fresh.bindings ∧ Store.shopBefore.TraversalsEnd ∧
      (again.collect Store.shopBefore).1 = (fresh.collect Store.shopBefore).1 ∧
      ((again.collect Store.shopBefore).2.count Store.shopBefore).1 =
        (fresh.collect Store.shopBefore).1.map List.length ∧
      (again.collect Store.shopBefore).2.Replays Store.shopBefore
        (fresh.collect Store.shopBefore).1 ∧
      ((again.collect Store.shopBefore).2.count Store.shopBefore).2.Replays Store.shopBefore
        (fresh.collect Store.shopBefore).1 := by
  obtain ⟨first, made⟩ : ∃ first, create shop shopPlan .standard = .ok first := ⟨_, rfl⟩
  obtain ⟨p, _, runs⟩ := runs_create made
  have bound := runs.bind Store.shopBefore (.operator 0) (.range (.atLeast ⟨[.text "b"], true⟩))
  obtain ⟨up, opened⟩ := bound.launch Store.shopBefore
  have again : Runs p _ false (first.afterAll Store.shopBefore shopCalls) :=
    (opened.next Store.shopBefore).close.bind Store.shopBefore (.operator 0)
      (.range (.atLeast ⟨[.text "c"], true⟩))
  have fresh := runs.bind Store.shopBefore (.operator 0) (.range (.atLeast ⟨[.text "c"], true⟩))
  have same : (first.afterAll Store.shopBefore shopCalls).bindings.Same (first.afterAll Store.shopBefore
      ([(BindingKey.operator 0, Binding.range (.atLeast ⟨[.text "c"], true⟩))].map
        fun b => .bind b.1 b.2)).bindings := by
    rw [again.same]
    exact fun key => congrArg (Bindings.get? · key) fresh.same.symm
  obtain ⟨rows, keeps⟩ := Store.keeps_run (Catalog.forest_of_declarations shop_accepted) shop_plain
    .standard 1 (Store.shopChanges ++ [.insert ⟨1⟩ [.int 2, .text "c"]])
  have ends : Store.shopBefore.TraversalsEnd :=
    Store.traversalsEnd_of_plain (keeps.catalog ▸ shop_plain) (Nat.le_of_eq keeps.batchSize.symm)
      keeps.holds.batches
  obtain ⟨collected, counted, replayed⟩ := reruns_like_new made made rfl again.closed rfl same
  exact ⟨first, first, _, _, made, made, rfl, again.closed, rfl, same, ends, collected, counted,
    replayed ends⟩

end Execution

end Interleave
