import Interleave.Proofs.Pipeline.Openings

/-!
What a tree remembers. Its operators are open together and closed together, and all that outlives a run
are counts, which no operator reads. So a closed tree starts like one that was never used, whatever was
done with it before.
-/

namespace Interleave

open Pipeline

/-- Whether two bindings give the same for every key. -/
def Bindings.Same (b b' : Bindings) : Prop := ∀ key, b.get? key = b'.get? key

namespace Pipeline

theorem Progress.begin_cases (operator : String) (p : Progress) :
    (p.phase = .closed ∧
      p.begin operator = (.error (.usage (.advancedClosed operator)), { p with current := none })) ∨
    (p.phase = .exhausted ∧ p.begin operator = (.ok false, { p with current := none })) ∨
    (p.phase = .running ∧ p.begin operator = (.ok true, { p with current := none })) := by
  cases phase : p.phase with
  | closed => exact .inl ⟨rfl, by simp [begin, phase]⟩
  | exhausted => exact .inr (.inl ⟨rfl, by simp [begin, phase]⟩)
  | running => exact .inr (.inr ⟨rfl, by simp [begin, phase]⟩)

theorem Progress.isOpen_of_running {p : Progress} (running : p.phase = .running) :
    p.isOpen = true := by
  rw [isOpen, running]
  rfl

variable {σ : Type}

/-- What an operator answers that has begun: what its search gives, if it may look for a row. -/
def Progress.proceed (answer : Except QueryError Bool) (s : σ)
    (search : Except QueryError (Option Row) × σ) : Except QueryError (Option Row) × σ :=
  match answer with
  | .error e => (.error e, s)
  | .ok false => (.ok none, s)
  | .ok true => search

/-- Only an open operator looks for a row, so any other stands as it did. -/
theorem Progress.proceed_stands {Stands : Bool → σ → Prop} {up : Bool} {s : σ}
    {search : Except QueryError (Option Row) × σ} (operator : String) {p : Progress}
    (level : p.isOpen = up) (idle : Stands up s) (searched : Stands true s → Stands true search.2) :
    Stands up (proceed (p.begin operator).1 s search).2 := by
  rcases p.begin_cases operator with ⟨_, begun⟩ | ⟨_, begun⟩ | ⟨running, begun⟩ <;> rw [begun]
  · exact idle
  · exact idle
  · obtain rfl := (isOpen_of_running running).symm.trans level
    exact searched idle

/-- Whether two attempts to open a machine fail alike or leave it alike. -/
inductive OpensAlike (Alike : σ → σ → Prop) :
    Except QueryError Unit × σ → Except QueryError Unit × σ → Prop where
  | failed (error : QueryError) {s s' : σ} : OpensAlike Alike (.error error, s) (.error error, s')
  | opened {s s' : σ} (alike : Alike s s') : OpensAlike Alike (.ok (), s) (.ok (), s')

theorem OpensAlike.elim {Alike : σ → σ → Prop} {x x' : Except QueryError Unit × σ}
    (opens : OpensAlike Alike x x') :
    (∃ error s s', x = (.error error, s) ∧ x' = (.error error, s')) ∨
    ∃ s s', x = (.ok (), s) ∧ x' = (.ok (), s') ∧ Alike s s' := by
  cases opens with
  | failed error => exact .inl ⟨error, _, _, rfl, rfl⟩
  | opened alike => exact .inr ⟨_, _, rfl, rfl, alike⟩

/-- Closed operators open alike over inputs that do. -/
theorem Progress.openOver_alike {τ : Type} {Alike : τ → τ → Prop} {InputAlike : σ → σ → Prop}
    (operator : String) {p p' : Progress} (closed : p.isOpen = false) (closed' : p'.isOpen = false)
    {launched launched' : Except QueryError Unit × σ} (input : OpensAlike InputAlike launched launched')
    {s s' : τ} {under under' start start' : σ → τ}
    (starts : ∀ below below', InputAlike below below' → Alike (start below) (start' below')) :
    OpensAlike Alike (openOver (p.checkClosed operator) s launched under start)
      (openOver (p'.checkClosed operator) s' launched' under' start') := by
  rcases input.elim with ⟨error, _, _, one, other⟩ | ⟨_, _, one, other, alike⟩
  · rw [openOver_error operator closed one, openOver_error operator closed' other]
    exact .failed error
  · rw [openOver_ok operator closed one, openOver_ok operator closed' other]
    exact .opened (starts _ _ alike)

/-- Whether a machine answers the same twice and is left alike. -/
def AnswersAlike (Alike : σ → σ → Prop) (a a' : Except QueryError (Option Row) × σ) : Prop :=
  a.1 = a'.1 ∧ Alike a.2 a'.2

theorem AnswersAlike.elim {Alike : σ → σ → Prop} {a a' : Except QueryError (Option Row) × σ}
    (answers : AnswersAlike Alike a a') :
    ∃ answer s s', a = (answer, s) ∧ a' = (answer, s') ∧ Alike s s' :=
  ⟨a.1, a.2, a'.2, rfl, Prod.ext answers.1.symm rfl, answers.2⟩

theorem Progress.proceed_alike {Alike : σ → σ → Prop} {s s' : σ} (answer : Except QueryError Bool)
    {search search' : Except QueryError (Option Row) × σ} (idle : Alike s s')
    (searched : AnswersAlike Alike search search') :
    AnswersAlike Alike (proceed answer s search) (proceed answer s' search') := by
  rcases answer with _ | _ | _
  · exact ⟨rfl, idle⟩
  · exact ⟨rfl, idle⟩
  · exact searched

/-- Whether the operators of a machine are open together. -/
structure Levelled (m : Machine σ) (Stands : Bool → σ → Prop) : Prop where
  root {up : Bool} {s : σ} (stands : Stands up s) : (m.progress s).isOpen = up
  fresh : Stands false m.fresh
  launch {store : Store} {bindings : Bindings} {s s' : σ}
    (opened : m.launch store bindings s = (.ok (), s')) : Stands true s'
  advance {up : Bool} {s : σ} (store : Store) (stands : Stands up s) :
    Stands up (m.advance store s).2
  close (s : σ) : Stands false (m.close s).2

/-- Whether a machine goes on alike from states that are alike, and starts alike whenever it is closed. -/
structure Renews (m : Machine σ) (Stands : Bool → σ → Prop) (Alike : σ → σ → Prop) : Prop where
  progress {s s' : σ} (alike : Alike s s') : m.progress s = m.progress s'
  ahead {s s' : σ} (store : Store) (alike : Alike s s') : m.ahead store s = m.ahead store s'
  advance {s s' : σ} (store : Store) (alike : Alike s s') :
    AnswersAlike Alike (m.advance store s) (m.advance store s')
  launch {s s' : σ} {bindings bindings' : Bindings} (store : Store) (closed : Stands false s)
    (closed' : Stands false s') (same : bindings.Same bindings') :
    OpensAlike Alike (m.launch store bindings s) (m.launch store bindings' s')

namespace Feed

def Stands (up : Bool) (s : State) : Prop := s.progress.isOpen = up

variable {items : List FeedItem}

theorem levelled : Levelled (machine items) Stands where
  root stands := stands
  fresh := rfl
  launch opened := by
    rw [launch_eq_ok opened]
    rfl
  advance {up s} store stands := by
    simp only [machine, advance]
    rcases s.progress.begin_cases name with ⟨_, begun⟩ | ⟨_, begun⟩ | ⟨running, begun⟩ <;>
      simp only [begun]
    · exact stands
    · exact stands
    · rw [Stands, Progress.isOpen_of_running running] at stands
      rcases s.items with _ | ⟨_ | _, _⟩
      · exact stands
      · exact (Progress.isOpen_of_running running).trans stands
      · exact (Progress.isOpen_of_running running).trans stands
  close s := rfl

theorem renews : Renews (machine items) Stands Eq where
  progress alike := alike ▸ rfl
  ahead store alike := alike ▸ rfl
  advance store alike := alike ▸ ⟨rfl, rfl⟩
  launch {s s' _ _} store closed closed' same := by
    simp only [machine, launch, Progress.checkClosed_eq name closed, Progress.checkClosed_eq name closed']
    exact .opened rfl

end Feed

namespace Scan

def Stands (up : Bool) (s : State) : Prop := s.progress.isOpen = up

/-- The rows read so far do not matter. -/
structure Alike (s s' : State) : Prop where
  progress : s.progress = s'.progress
  traversal : s.traversal = s'.traversal

variable {name label : String} {store : Store} {s s' : State} {up : Bool}

theorem pull_stands (stands : Stands true s) : Stands true (pull label store s).2 := by
  simp only [pull]
  split
  · exact stands
  · split
    · exact stands
    · exact rfl
    · split
      · exact stands
      · exact stands

theorem advance_stands (stands : Stands up s) : Stands up (advance name label store s).2 :=
  Progress.proceed_stands name stands stands pull_stands

theorem pull_alike (alike : Alike s s') :
    AnswersAlike Alike (pull label store s) (pull label store s') := by
  obtain ⟨progress, traversal, read⟩ := s
  obtain ⟨progress', traversal', read'⟩ := s'
  obtain ⟨rfl, rfl⟩ : progress = progress' ∧ traversal = traversal' := ⟨alike.1, alike.2⟩
  simp only [pull]
  cases traversal with
  | none => exact ⟨rfl, alike⟩
  | some traversal =>
    dsimp only
    generalize traversal.advance store = advanced
    rcases advanced with ⟨_ | _ | _, further⟩
    · exact ⟨rfl, rfl, rfl⟩
    · exact ⟨rfl, rfl, rfl⟩
    · dsimp only
      generalize further.currentRow store = stood
      cases stood <;> exact ⟨rfl, rfl, rfl⟩

theorem advance_alike (alike : Alike s s') :
    AnswersAlike Alike (advance name label store s) (advance name label store s') := by
  have begun : Alike { s with progress := { s.progress with current := none } }
      { s' with progress := { s.progress with current := none } } := ⟨rfl, alike.traversal⟩
  rw [advance, advance, ← alike.progress]
  exact Progress.proceed_alike _ begun (pull_alike begun)

theorem openOn_alike (s s' : State) (traversal : Traversal) :
    Alike (openOn s traversal) (openOn s' traversal) := ⟨rfl, rfl⟩

/-- Closed scans open alike on what they find. -/
theorem launch_alike (closed : Stands false s) (closed' : Stands false s')
    (traversed : Except QueryError Traversal) :
    OpensAlike Alike (launch name traversed s) (launch name traversed s') := by
  cases traversed with
  | error e =>
    rw [launch_error closed rfl, launch_error closed' rfl]
    exact .failed e
  | ok traversal =>
    rw [launch_ok closed rfl, launch_ok closed' rfl]
    exact .opened (openOn_alike s s' traversal)

theorem resolveRange_congr (scan : IndexScan) {b b' : Bindings} (same : b.Same b') :
    resolveRange scan b = resolveRange scan b' := by
  simp only [resolveRange, Bindings.range?, same scan.bindingKey]

theorem traverseRange_congr (scan : IndexScan) (store : Store) {b b' : Bindings} (same : b.Same b') :
    traverseRange scan store b = traverseRange scan store b' := by
  simp only [traverseRange, resolveRange_congr scan same]

variable {traversed : Store → Bindings → Except QueryError Traversal}

theorem levelled : Levelled (traversing name label traversed) Stands where
  root stands := stands
  fresh := rfl
  launch opened := by
    obtain ⟨_, _, rfl⟩ := launch_eq_ok opened
    rfl
  advance _ stands := advance_stands stands
  close _ := rfl

theorem renews (congr : ∀ store {b b' : Bindings}, b.Same b' → traversed store b = traversed store b') :
    Renews (traversing name label traversed) Stands Alike where
  progress alike := alike.progress
  ahead store alike := by simp only [traversing, ahead, alike.traversal]
  advance _ alike := advance_alike alike
  launch {_ _ bindings bindings'} store closed closed' same := by
    show OpensAlike _ (launch name (traversed store bindings) _) _
    rw [congr store same]
    exact launch_alike closed closed' _

end Scan

namespace Select

variable {m : Machine σ} {InputStands : Bool → σ → Prop} {InputAlike : σ → σ → Prop}

/-- The operators below stand as this one does. -/
structure Stands (InputStands : Bool → σ → Prop) (up : Bool) (s : State σ) : Prop where
  progress : s.progress.isOpen = up
  input : InputStands up s.input

/-- The rows dropped so far do not matter. -/
structure Alike (InputAlike : σ → σ → Prop) (s s' : State σ) : Prop where
  progress : s.progress = s'.progress
  dropped : s.dropped = s'.dropped
  input : InputAlike s.input s'.input

variable {target : RowType} {predicate : Predicate} {store : Store} {s s' : State σ} {up : Bool}

theorem pull_stands (levelled : Levelled m InputStands) (stands : Stands InputStands true s)
    (fuel : Nat) : Stands InputStands true (pull target predicate m store fuel s).2 := by
  induction fuel generalizing s with
  | zero => exact stands
  | succ fuel ih =>
    have below := levelled.advance store stands.input
    simp only [pull]
    split
    · exact ⟨stands.progress, below⟩
    · exact ⟨rfl, below⟩
    · split
      · exact ⟨stands.progress, below⟩
      · exact ⟨stands.progress, below⟩
      · exact ih ⟨stands.progress, below⟩

theorem pull_alike (input : ∀ {s s'}, InputAlike s s' →
      AnswersAlike InputAlike (m.advance store s) (m.advance store s'))
    (alike : Alike InputAlike s s') (fuel : Nat) :
    AnswersAlike (Alike InputAlike) (pull target predicate m store fuel s)
      (pull target predicate m store fuel s') := by
  induction fuel generalizing s s' with
  | zero => exact ⟨rfl, alike⟩
  | succ fuel ih =>
    obtain ⟨answer, _, _, one, other, below⟩ := (input alike.input).elim
    simp only [pull, one, other, ← alike.dropped, ← alike.progress]
    rcases answer with _ | _ | row
    · exact ⟨rfl, rfl, rfl, below⟩
    · exact ⟨rfl, rfl, rfl, below⟩
    · dsimp only
      generalize judge target predicate s.dropped row = judged
      rcases judged with ⟨_ | _ | _, dropped⟩
      · exact ⟨rfl, rfl, rfl, below⟩
      · exact ih ⟨rfl, rfl, below⟩
      · exact ⟨rfl, rfl, rfl, below⟩

theorem levelled (input : Levelled m InputStands) :
    Levelled (machine target predicate m) (Stands InputStands) where
  root stands := stands.progress
  fresh := ⟨rfl, input.fresh⟩
  launch opened := by
    obtain ⟨_, below, rfl⟩ := of_launch opened
    exact ⟨rfl, input.launch below⟩
  advance {up s} store stands :=
    Progress.proceed_stands name stands.progress ⟨stands.progress, stands.input⟩ fun begun =>
      pull_stands input begun _
  close s := ⟨rfl, input.close s.input⟩

theorem renews (input : Renews m InputStands InputAlike) :
    Renews (machine target predicate m) (Stands InputStands) (Alike InputAlike) where
  progress alike := alike.progress
  ahead store alike := input.ahead store alike.input
  advance {s s'} store alike := by
    have begun : Alike InputAlike { s with progress := { s.progress with current := none } }
        { s' with progress := { s.progress with current := none } } :=
      ⟨rfl, alike.dropped, alike.input⟩
    simp only [machine, advance, ← alike.progress, ← input.ahead store alike.input]
    exact Progress.proceed_alike _ begun (pull_alike (input.advance store) begun _)
  launch {s s' bindings bindings'} store closed closed' same := by
    show OpensAlike _ (launch m store bindings s) (launch m store bindings' s')
    rw [launch_eq, launch_eq]
    exact Progress.openOver_alike name closed.progress closed'.progress
      (input.launch store closed.input closed'.input same) fun _ _ alike => ⟨rfl, rfl, alike⟩

end Select

namespace Flatten

variable {m : Machine σ} {InputStands : Bool → σ → Prop} {InputAlike : σ → σ → Prop}

/-- The operators below stand as this one does. -/
structure Stands (InputStands : Bool → σ → Prop) (up : Bool) (s : State σ) : Prop where
  progress : s.progress.isOpen = up
  input : InputStands up s.input

structure Alike (InputAlike : σ → σ → Prop) (s s' : State σ) : Prop where
  progress : s.progress = s'.progress
  input : InputAlike s.input s'.input
  lookback : s.lookback = s'.lookback
  output : s.output = s'.output
  ended : s.ended = s'.ended

variable {parentType childType : RowType} {store : Store} {s s' : State σ} {up : Bool}

theorem pull_stands (levelled : Levelled m InputStands) (stands : Stands InputStands true s)
    (fuel : Nat) : Stands InputStands true (pull parentType childType m store fuel s).2 := by
  induction fuel generalizing s with
  | zero => exact stands
  | succ fuel ih =>
    have below := levelled.advance store stands.input
    simp only [pull]
    split
    · exact ⟨stands.progress, stands.input⟩
    · split
      · exact ⟨rfl, stands.input⟩
      · split
        · exact ⟨stands.progress, below⟩
        · exact ih ⟨stands.progress, below⟩
        · exact ih ⟨stands.progress, below⟩

theorem pull_alike (input : ∀ {s s'}, InputAlike s s' →
      AnswersAlike InputAlike (m.advance store s) (m.advance store s'))
    (alike : Alike InputAlike s s') (fuel : Nat) :
    AnswersAlike (Alike InputAlike) (pull parentType childType m store fuel s)
      (pull parentType childType m store fuel s') := by
  induction fuel generalizing s s' with
  | zero => exact ⟨rfl, alike⟩
  | succ fuel ih =>
    obtain ⟨progress, i, lookback, output, ended⟩ := s
    obtain ⟨progress', i', lookback', output', ended'⟩ := s'
    obtain ⟨rfl, inputs, rfl, rfl, rfl⟩ := alike
    obtain ⟨answer, _, _, one, other, below⟩ := (input inputs).elim
    simp only [pull, one, other]
    cases output with
    | cons row rest => exact ⟨rfl, rfl, inputs, rfl, rfl, rfl⟩
    | nil =>
      cases ended with
      | true => exact ⟨rfl, rfl, inputs, rfl, rfl, rfl⟩
      | false =>
        rcases answer with _ | _ | row
        · exact ⟨rfl, rfl, below, rfl, rfl, rfl⟩
        · exact ih ⟨rfl, below, rfl, rfl, rfl⟩
        · exact ih ⟨rfl, below, rfl, rfl, rfl⟩

theorem levelled (input : Levelled m InputStands) :
    Levelled (machine parentType childType m) (Stands InputStands) where
  root stands := stands.progress
  fresh := ⟨rfl, input.fresh⟩
  launch opened := by
    obtain ⟨_, below, rfl⟩ := of_launch opened
    exact ⟨rfl, input.launch below⟩
  advance {up s} store stands :=
    Progress.proceed_stands name stands.progress ⟨stands.progress, stands.input⟩ fun begun =>
      pull_stands input begun _
  close s := ⟨rfl, input.close s.input⟩

theorem renews (input : Renews m InputStands InputAlike) :
    Renews (machine parentType childType m) (Stands InputStands) (Alike InputAlike) where
  progress alike := alike.progress
  ahead store alike := by
    simp only [machine, alike.output, alike.lookback, input.ahead store alike.input]
  advance {s s'} store alike := by
    have begun : Alike InputAlike { s with progress := { s.progress with current := none } }
        { s' with progress := { s.progress with current := none } } :=
      ⟨rfl, alike.input, alike.lookback, alike.output, alike.ended⟩
    simp only [machine, advance, ← alike.progress, ← input.ahead store alike.input]
    exact Progress.proceed_alike _ begun (pull_alike (input.advance store) begun _)
  launch {s s' bindings bindings'} store closed closed' same := by
    show OpensAlike _ (launch m store bindings s) (launch m store bindings' s')
    rw [launch_eq, launch_eq]
    exact Progress.openOver_alike name closed.progress closed'.progress
      (input.launch store closed.input closed'.input same) fun _ _ alike => ⟨rfl, alike, rfl, rfl, rfl⟩

end Flatten

namespace IndexLookup

variable {m : Machine σ} {InputStands : Bool → σ → Prop} {InputAlike : σ → σ → Prop}

/-- The operators below stand as this one does. -/
structure Stands (InputStands : Bool → σ → Prop) (up : Bool) (s : State σ) : Prop where
  progress : s.progress.isOpen = up
  input : InputStands up s.input

/-- The rows read so far do not matter. -/
structure Alike (InputAlike : σ → σ → Prop) (s s' : State σ) : Prop where
  progress : s.progress = s'.progress
  input : InputAlike s.input s'.input
  pending : s.pending = s'.pending
  branch : s.branch = s'.branch

variable {lookup : IndexLookup} {store : Store} {s s' : State σ} {up : Bool}

theorem nextEntry_stands (levelled : Levelled m InputStands) (stands : Stands InputStands true s) :
    Stands InputStands true (nextEntry lookup m store s).2 := by
  have below := levelled.advance store stands.input
  simp only [nextEntry]
  split
  · exact ⟨stands.progress, below⟩
  · exact ⟨rfl, below⟩
  · split
    · exact ⟨stands.progress, below⟩
    · split
      · exact ⟨stands.progress, below⟩
      · simp only [emitFirst]
        split
        · exact ⟨stands.progress, below⟩
        · exact ⟨stands.progress, below⟩

theorem pull_stands (levelled : Levelled m InputStands) (stands : Stands InputStands true s) :
    Stands InputStands true (pull lookup m store s).2 := by
  simp only [pull]
  split
  · exact ⟨stands.progress, stands.input⟩
  · split
    · exact nextEntry_stands levelled stands
    · split
      · exact ⟨stands.progress, stands.input⟩
      · exact nextEntry_stands levelled ⟨stands.progress, stands.input⟩
      · split
        · exact ⟨stands.progress, stands.input⟩
        · exact ⟨stands.progress, stands.input⟩

section Alike

variable (input : ∀ {s s'}, InputAlike s s' →
  AnswersAlike InputAlike (m.advance store s) (m.advance store s'))
include input

theorem nextEntry_alike (alike : Alike InputAlike s s') :
    AnswersAlike (Alike InputAlike) (nextEntry lookup m store s) (nextEntry lookup m store s') := by
  obtain ⟨progress, i, pending, branch, _⟩ := s
  obtain ⟨progress', i', pending', branch', _⟩ := s'
  obtain ⟨rfl, inputs, rfl, rfl⟩ := alike
  obtain ⟨answer, _, _, one, other, below⟩ := (input inputs).elim
  simp only [nextEntry, one, other]
  rcases answer with _ | _ | entry
  · exact ⟨rfl, rfl, below, rfl, rfl⟩
  · exact ⟨rfl, rfl, below, rfl, rfl⟩
  · dsimp only
    cases entry.key with
    | none => exact ⟨rfl, rfl, below, rfl, rfl⟩
    | some key =>
      dsimp only
      generalize expand lookup store key = expanded
      rcases expanded with ⟨_ | ⟨_ | _, _, _⟩, _⟩
      · exact ⟨rfl, rfl, below, rfl, rfl⟩
      · exact ⟨rfl, rfl, below, rfl, rfl⟩
      · exact ⟨rfl, rfl, below, rfl, rfl⟩

theorem pull_alike (alike : Alike InputAlike s s') :
    AnswersAlike (Alike InputAlike) (pull lookup m store s) (pull lookup m store s') := by
  obtain ⟨progress, i, pending, branch, _⟩ := s
  obtain ⟨progress', i', pending', branch', _⟩ := s'
  obtain ⟨rfl, inputs, rfl, rfl⟩ := alike
  simp only [pull]
  cases pending with
  | cons row rest => exact ⟨rfl, rfl, inputs, rfl, rfl⟩
  | nil =>
    cases branch with
    | none => exact nextEntry_alike input ⟨rfl, inputs, rfl, rfl⟩
    | some branch =>
      dsimp only
      generalize branch.advance store = advanced
      rcases advanced with ⟨_ | _ | _, further⟩
      · exact ⟨rfl, rfl, inputs, rfl, rfl⟩
      · exact nextEntry_alike input ⟨rfl, inputs, rfl, rfl⟩
      · dsimp only
        generalize further.currentRow store = stood
        cases stood <;> exact ⟨rfl, rfl, inputs, rfl, rfl⟩

end Alike

theorem levelled (input : Levelled m InputStands) :
    Levelled (machine lookup m) (Stands InputStands) where
  root stands := stands.progress
  fresh := ⟨rfl, input.fresh⟩
  launch opened := by
    obtain ⟨_, below, rfl⟩ := of_launch opened
    exact ⟨rfl, input.launch below⟩
  advance {up s} store stands :=
    Progress.proceed_stands name stands.progress ⟨stands.progress, stands.input⟩ fun begun =>
      pull_stands input begun
  close s := ⟨rfl, input.close s.input⟩

theorem renews (input : Renews m InputStands InputAlike) :
    Renews (machine lookup m) (Stands InputStands) (Alike InputAlike) where
  progress alike := alike.progress
  ahead store alike := by
    simp only [machine, alike.pending, alike.branch, input.ahead store alike.input]
  advance {s s'} store alike := by
    have begun : Alike InputAlike { s with progress := { s.progress with current := none } }
        { s' with progress := { s.progress with current := none } } :=
      ⟨rfl, alike.input, alike.pending, alike.branch⟩
    simp only [machine, advance, ← alike.progress]
    exact Progress.proceed_alike _ begun (pull_alike (input.advance store) begun)
  launch {s s' bindings bindings'} store closed closed' same := by
    show OpensAlike _ (launch m store bindings s) (launch m store bindings' s')
    rw [launch_eq, launch_eq]
    exact Progress.openOver_alike name closed.progress closed'.progress
      (input.launch store closed.input closed'.input same) fun _ _ alike => ⟨rfl, alike, rfl, rfl⟩

end IndexLookup

/-- Whether all operators of a tree are open, or all are closed. -/
def Stands : (p : Pipeline) → Bool → p.State → Prop
  | feed _ => Feed.Stands
  | groupScan _ => Scan.Stands
  | indexScan _ => Scan.Stands
  | select _ _ input => Select.Stands input.Stands
  | flatten _ _ input => Flatten.Stands input.Stands
  | indexLookup _ input => IndexLookup.Stands input.Stands

/-- Whether two trees differ in their counts alone. -/
def Alike : (p : Pipeline) → p.State → p.State → Prop
  | feed _ => Eq
  | groupScan _ => Scan.Alike
  | indexScan _ => Scan.Alike
  | select _ _ input => Select.Alike input.Alike
  | flatten _ _ input => Flatten.Alike input.Alike
  | indexLookup _ input => IndexLookup.Alike input.Alike

theorem levelled (p : Pipeline) : Levelled p.machine p.Stands := by
  induction p with
  | feed items => exact Feed.levelled
  | groupScan group => exact Scan.levelled
  | indexScan scan => exact Scan.levelled
  | select target predicate input ih => exact Select.levelled ih
  | flatten parent child input ih => exact Flatten.levelled ih
  | indexLookup lookup input ih => exact IndexLookup.levelled ih

theorem renews (p : Pipeline) : Renews p.machine p.Stands p.Alike := by
  induction p with
  | feed items => exact Feed.renews
  | groupScan group => exact Scan.renews fun _ _ _ _ => rfl
  | indexScan scan => exact Scan.renews fun store _ _ same => Scan.traverseRange_congr scan store same
  | select target predicate input ih => exact Select.renews ih
  | flatten parent child input ih => exact Flatten.renews ih
  | indexLookup lookup input ih => exact IndexLookup.renews ih

end Pipeline

end Interleave
