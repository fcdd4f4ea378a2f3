import Interleave.Proofs.Pipeline.Expansion
import Interleave.Proofs.Pipeline.Remaining

/-!
What can go wrong while a tree runs. An operator that runs gives rows of a certain kind, ends, or fails as
its input may or for a cause of its own: a scan has none, nor has a join, a selection fails where its
predicate does, and a lookup where a key does not expand. The loops of selections and joins come to an end,
as there is a bound on the rows that their inputs have left.
-/

namespace Interleave.Pipeline

variable {σ : Type}

/-- Whether a machine gives a row of a certain kind and goes on, or is over, or fails in a certain way. -/
inductive Took (Good : Row → Prop) (Fault : QueryError → Prop) (Going : σ → Prop) :
    Except QueryError (Option Row) × σ → Prop where
  | row {row : Row} {s : σ} (good : Good row) (going : Going s) : Took Good Fault Going (.ok (some row), s)
  | ended {s : σ} : Took Good Fault Going (.ok none, s)
  | failed {e : QueryError} {s : σ} (fault : Fault e) : Took Good Fault Going (.error e, s)

/-- Whether a machine that is closed opens, or is refused for a binding that does not suit it, and goes on
from there until it is over or fails. -/
structure Serves (m : Machine σ) (store : Store) (bindings : Bindings) (Stands : Bool → σ → Prop)
    (Misfit : BindingFault → Prop) (Good : Row → Prop) (Fault : QueryError → Prop) (Going : σ → Prop) :
    Prop where
  launch {s : σ} (closed : Stands false s) :
    (∃ fault s', m.launch store bindings s = (.error (.binding fault), s') ∧ Misfit fault) ∨
      ∃ s', m.launch store bindings s = (.ok (), s') ∧ Going s'
  advance {s : σ} (going : Going s) : Took Good Fault Going (m.advance store s)

variable {m : Machine σ} {store : Store} {bindings : Bindings} {InputStands : Bool → σ → Prop}
  {Misfit : BindingFault → Prop} {InputGood Good : Row → Prop} {InputFault Fault : QueryError → Prop}
  {InputGoing : σ → Prop} {InputLeft : σ → Nat → Prop}

/-- Where there is a bound on the rows that are left, it goes on with the machine. -/
theorem Serves.bounded {Going : σ → Prop}
    (serves : Serves m store bindings InputStands Misfit Good Fault Going)
    (counts : Dwindles m store InputLeft) :
    Serves m store bindings InputStands Misfit Good Fault fun s => Going s ∧ ∃ n, InputLeft s n where
  launch closed := by
    rcases serves.launch closed with refused | ⟨s', opened, going⟩
    · exact .inl refused
    · exact .inr ⟨s', opened, going, counts.launch opened⟩
  advance {s} going := by
    obtain ⟨going, n, left⟩ := going
    have took := serves.advance going
    rcases answered : m.advance store s with ⟨e | _ | row, s'⟩ <;> rw [answered] at took
    · cases took with
      | failed fault => exact .failed fault
    · exact .ended
    · cases took with
      | row good going =>
        obtain ⟨k, -, left⟩ := counts.advance left answered
        exact .row good ⟨going, k, left⟩

/-- An operator that is closed opens after its input, or is refused as its input is. -/
theorem Serves.launch_above
    (input : Serves m store bindings InputStands Misfit InputGood InputFault InputGoing) {τ : Type}
    {Going : τ → Prop} {operator : String} {p : Progress} {s : τ} {below : σ} {under start : σ → τ}
    (shut : p.isOpen = false) (closed : InputStands false below)
    (going : ∀ below, InputGoing below → Going (start below)) {launched : Except QueryError Unit × τ}
    (same : launched =
      Progress.openOver (p.checkClosed operator) s (m.launch store bindings below) under start) :
    (∃ fault s', launched = (.error (.binding fault), s') ∧ Misfit fault) ∨
      ∃ s', launched = (.ok (), s') ∧ Going s' := by
  rcases input.launch closed with ⟨fault, below', refused, misfit⟩ | ⟨below', opened, begun⟩
  · exact .inl ⟨fault, _, same.trans (Progress.openOver_error operator shut refused), misfit⟩
  · exact .inr ⟨_, same.trans (Progress.openOver_ok operator shut opened), going below' begun⟩

namespace Scan

/-- The traversal of a running scan stands on rows of a certain kind. -/
def Going (store : Store) (Good : Row → Prop) (s : State) : Prop :=
  s.progress.phase = .running ∧
    ∃ traversal rows, s.traversal = some traversal ∧ traversal.Yields store rows ∧ ∀ row ∈ rows, Good row

theorem advance_took {name label : String} {s : State} (going : Going store Good s) :
    Took Good Fault (Going store Good) (advance name label store s) := by
  obtain ⟨running, traversal, rows, opened, yields, good⟩ := going
  cases yields with
  | done ended =>
    simp only [advance, Progress.begin_running running, pull, opened, ended]
    exact .ended
  | more next stands _ others =>
    simp only [advance, Progress.begin_running running, pull, opened, next, stands]
    exact .row (good _ List.mem_cons_self)
      ⟨running, _, _, rfl, others, fun row member => good row (List.mem_cons_of_mem _ member)⟩

/-- A scan opens and goes on if it finds a traversal that stands on rows of a certain kind. -/
theorem serves {name label : String} {traversed : Store → Bindings → Except QueryError Traversal}
    (opens : (∃ fault, traversed store bindings = .error (.binding fault) ∧ Misfit fault) ∨
      ∃ t rows, traversed store bindings = .ok t ∧ t.Yields store rows ∧ ∀ row ∈ rows, Good row) :
    Serves (traversing name label traversed) store bindings Stands Misfit Good Fault (Going store Good) where
  launch {s} closed := by
    rcases opens with ⟨fault, refused, misfit⟩ | ⟨t, rows, found, yields, good⟩
    · exact .inl ⟨fault, s, launch_error closed refused, misfit⟩
    · exact .inr ⟨openOn s t, launch_ok closed found, rfl, t, rows, rfl, yields, good⟩
  advance going := advance_took going

end Scan

namespace Select

variable {target : RowType} {predicate : Predicate} {s : State σ}

def Going (InputGoing : σ → Prop) (s : State σ) : Prop :=
  s.progress.phase = .running ∧ InputGoing s.input

/-- Only the predicate fails. -/
theorem judge_error {dropped dropped' : Option RowKey} {row : Row} {e : QueryError}
    (judged : judge target predicate dropped row = (.error e, dropped')) :
    row.rowType.same target = true ∧ predicate.evaluate row = .error e := by
  simp only [judge] at judged
  split at judged
  · cases judged
  split at judged
  next same =>
    split at judged <;> cases judged
    next failed => exact ⟨same, failed⟩
  · cases judged

section Serves

variable (input : Serves m store bindings InputStands Misfit InputGood InputFault InputGoing)
  (counts : Dwindles m store InputLeft)
  (passes : ∀ row, InputGood row → Good row) (fails : ∀ e, InputFault e → Fault e)
  (judges : ∀ row e, InputGood row → row.rowType.same target = true →
    predicate.evaluate row = .error e → Fault e)
include input counts passes fails judges

theorem pull_took (going : Going InputGoing s) {n fuel : Nat} (left : InputLeft s.input n)
    (enough : n < fuel) : Took Good Fault (Going InputGoing) (pull target predicate m store fuel s) := by
  induction fuel generalizing s n with
  | zero => cases enough
  | succ fuel ih =>
    have took := input.advance going.2
    rcases answer : m.advance store s.input with ⟨e | _ | row, below⟩ <;> rw [answer] at took <;>
      simp only [pull, answer]
    · cases took with
      | failed fault => exact .failed (fails e fault)
    · exact .ended
    · cases took with
      | row good below =>
        rcases judged : judge target predicate s.dropped row with ⟨e | _ | _, dropped⟩
        · obtain ⟨same, failed⟩ := judge_error judged
          exact .failed (judges row e good same failed)
        · obtain ⟨k, fewer, left⟩ := counts.advance left answer
          exact ih ⟨going.1, below⟩ left (by omega)
        · exact .row (passes row good) ⟨going.1, below⟩

variable (bounded : ∀ s, InputGoing s → ∃ n, InputLeft s n)
include bounded

theorem serves : Serves (machine target predicate m) store bindings (Stands InputStands) Misfit Good
    Fault (Going InputGoing) where
  launch closed :=
    input.launch_above closed.progress closed.input (fun _ going => ⟨rfl, going⟩) (launch_eq ..)
  advance {s} going := by
    obtain ⟨n, left⟩ := bounded s.input going.2
    simp only [machine, advance, Progress.begin_running going.1]
    exact pull_took input counts passes fails judges
      (s := { s with progress := { s.progress with current := none } }) going left
      (Nat.lt_succ_of_le (counts.ahead left))

end Serves

end Select

namespace Flatten

variable {parentType childType : RowType} {s : State σ}

/-- While a running join reads, its input goes on; the parent in sight came in and the rows that are ready
are such as go out. -/
structure Going (InputGoing : σ → Prop) (InputGood Good : Row → Prop) (s : State σ) : Prop where
  running : s.progress.phase = .running
  input : s.ended = false → InputGoing s.input
  parents : ∀ row ∈ s.lookback.parents, InputGood row
  output : ∀ row ∈ s.output, Good row

section Serves

variable (input : Serves m store bindings InputStands Misfit InputGood InputFault InputGoing)
  (counts : Dwindles m store InputLeft)
  (passes : ∀ row, InputGood row → Good row) (fails : ∀ e, InputFault e → Fault e)
  (joins : ∀ parent child, InputGood parent → InputGood child → parent.isAbove child = true →
    Good (parent.join child (.flattened parentType childType)))
include passes joins

theorem absorb_good {l : Lookback} (parents : ∀ row ∈ l.parents, InputGood row) {row : Row}
    (good : InputGood row) :
    (∀ row' ∈ (l.absorb parentType childType row).1.parents, InputGood row') ∧
      ∀ row' ∈ (l.absorb parentType childType row).2, Good row' := by
  have released : ∀ row ∈ l.released, Good row := fun row member =>
    passes row (parents row (l.released_sublist.subset member))
  rcases l.absorb_cases parentType childType row with
    ⟨_, step⟩ | ⟨_, _, step⟩ | ⟨p, _, sight, above, _, step⟩ | ⟨_, _, _, step⟩ <;> rw [step]
  · exact ⟨List.forall_mem_singleton.2 good, released⟩
  · exact ⟨nofun, List.forall_mem_append.2 ⟨released, List.forall_mem_singleton.2 (passes row good)⟩⟩
  · have parent : InputGood p := parents p (sight ▸ List.mem_cons_self)
    exact ⟨List.forall_mem_singleton.2 parent, List.forall_mem_singleton.2 (joins p row parent good above)⟩
  · exact ⟨parents, List.forall_mem_singleton.2 (passes row good)⟩

include input counts fails

/-- The rows that the input has left and the two steps at its end are all that the loop needs. -/
theorem pull_took (going : Going InputGoing InputGood Good s) {fuel : Nat} (once : 1 ≤ fuel)
    (enough : s.ended = false → ∃ n, InputLeft s.input n ∧ n + 2 ≤ fuel) :
    Took Good Fault (Going InputGoing InputGood Good)
      (pull parentType childType m store fuel s) := by
  induction fuel generalizing s with
  | zero => cases once
  | succ fuel ih =>
    rw [pull]
    rcases ready : s.output with _ | ⟨row, rest⟩
    · rcases ended : s.ended with _ | _
      · obtain ⟨n, left, enough⟩ := enough ended
        have took := input.advance (going.input ended)
        rcases answer : m.advance store s.input with ⟨e | _ | row, below⟩ <;> rw [answer] at took <;>
          simp only [Bool.false_eq_true, if_false]
        · cases took with
          | failed fault => exact .failed (fails e fault)
        · have output : ∀ row ∈ s.lookback.released, Good row := fun row member =>
            passes row (going.parents row (s.lookback.released_sublist.subset member))
          exact ih ⟨going.running, fun reading => Bool.noConfusion reading, List.forall_mem_nil _, output⟩
            (by omega) fun reading => Bool.noConfusion reading
        · cases took with
          | row good below =>
            obtain ⟨parents, output⟩ := absorb_good passes joins going.parents good
            obtain ⟨k, fewer, left⟩ := counts.advance left answer
            exact ih ⟨going.running, fun _ => below, parents, output⟩ (by omega)
              fun _ => ⟨k, left, by omega⟩
      · exact .ended
    · have output := going.output
      rw [ready] at output
      obtain ⟨first, others⟩ := List.forall_mem_cons.1 output
      exact .row first ⟨going.running, going.input, going.parents, others⟩

variable (bounded : ∀ s, InputGoing s → ∃ n, InputLeft s n)
include bounded

theorem serves : Serves (machine parentType childType m) store bindings (Stands InputStands) Misfit
    Good Fault (Going InputGoing InputGood Good) where
  launch closed :=
    input.launch_above closed.progress closed.input (fun _ going => ⟨rfl, fun _ => going, nofun, nofun⟩)
      (launch_eq ..)
  advance {s} going := by
    simp only [machine, advance, Progress.begin_running going.running]
    refine pull_took input counts passes fails joins
      (s := { s with progress := { s.progress with current := none } })
      ⟨going.running, going.input, going.parents, going.output⟩ (Nat.le_add_left 1 _) fun reading => ?_
    obtain ⟨n, left⟩ := bounded s.input (going.input reading)
    exact ⟨n, left, Nat.add_le_add_right (counts.ahead left) 2⟩

end Serves

end Flatten

namespace IndexLookup

variable {lookup : IndexLookup} {s : State σ}

/-- The input of a running lookup goes on, and the rows that are ready and those left of the branch are of a
certain kind. -/
structure Going (store : Store) (InputGoing : σ → Prop) (Good : Row → Prop) (s : State σ) : Prop where
  running : s.progress.phase = .running
  input : InputGoing s.input
  pending : ∀ row ∈ s.pending, Good row
  branch : ∃ below, Leaves store s.branch below ∧ ∀ row ∈ below, Good row

section Serves

variable (input : Serves m store bindings InputStands Misfit InputGood InputFault InputGoing)
  (fails : ∀ e, InputFault e → Fault e)
  (expands : ∀ entry, InputGood entry → ∃ k answers, entry.key = some k ∧
    Expands lookup store k answers ∧ (∀ row, .ok row ∈ answers → Good row) ∧
      ∀ e, .error e ∈ answers → Fault e)
include input fails expands

theorem nextEntry_took (running : s.progress.phase = .running) (below : InputGoing s.input) :
    Took Good Fault (Going store InputGoing Good) (nextEntry lookup m store s) := by
  have took := input.advance below
  rcases answer : m.advance store s.input with ⟨e | _ | entry, below⟩ <;> rw [answer] at took <;>
    simp only [nextEntry, answer]
  · cases took with
    | failed fault => exact .failed (fails e fault)
  · exact .ended
  · cases took with
    | row good below =>
      obtain ⟨k, answers, key, expanded, rows, errors⟩ := expands entry good
      cases expanded with
      | failed found =>
        simp only [key, found]
        exact .failed (errors _ List.mem_cons_self)
      | @spread above others last branch read found leaves =>
        simp only [key, found]
        have each : ∀ row ∈ above ++ last :: others, Good row :=
          fun row member => rows row (List.mem_map_of_mem member)
        obtain ⟨front, rest⟩ := List.forall_mem_append.1 each
        obtain ⟨own, rest⟩ := List.forall_mem_cons.1 rest
        cases above with
        | nil => exact .row own ⟨running, below, List.forall_mem_nil _, others, leaves, rest⟩
        | cons first above =>
          obtain ⟨first, front⟩ := List.forall_mem_cons.1 front
          exact .row first ⟨running, below,
            List.forall_mem_append.2 ⟨front, List.forall_mem_singleton.2 own⟩, others, leaves, rest⟩

theorem advance_took (going : Going store InputGoing Good s) :
    Took Good Fault (Going store InputGoing Good) (advance lookup m store s) := by
  obtain ⟨running, below, pending, rows, leaves, good⟩ := going
  simp only [advance, Progress.begin_running running, pull]
  rcases ready : s.pending with _ | ⟨row, rest⟩
  · rcases opened : s.branch with _ | branch
    · exact nextEntry_took input fails expands running below
    · rw [opened] at leaves
      cases leaves with
      | done ended =>
        simp only [ended]
        exact nextEntry_took input fails expands running below
      | more next stands _ others =>
        simp only [next, stands]
        obtain ⟨first, good⟩ := List.forall_mem_cons.1 good
        exact .row first ⟨running, below, List.forall_mem_nil _, _, others, good⟩
  · rw [ready] at pending
    obtain ⟨first, others⟩ := List.forall_mem_cons.1 pending
    exact .row first ⟨running, below, others, rows, leaves, good⟩

theorem serves : Serves (machine lookup m) store bindings (Stands InputStands) Misfit Good Fault
    (Going store InputGoing Good) where
  launch closed :=
    input.launch_above closed.progress closed.input (fun _ going => ⟨rfl, going, nofun, [], rfl, nofun⟩)
      (launch_eq ..)
  advance going := advance_took input fails expands going

end Serves

end IndexLookup

end Interleave.Pipeline
