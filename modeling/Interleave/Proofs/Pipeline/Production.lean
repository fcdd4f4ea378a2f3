import Interleave.Proofs.Pipeline.Nesting
import Interleave.Proofs.Pipeline.Openings
import Interleave.Execution

/-!
What a machine lets out. A machine that lets out certain rows and then ends makes the operators above it
and the execution at the top see just these rows; in particular the fuel of every loop lasts.
-/

namespace Interleave

open Pipeline

namespace Pipeline

theorem Progress.begin_running {p : Progress} (running : p.phase = .running) (operator : String) :
    p.begin operator = (.ok true, { p with current := none }) := by
  simp [begin, running]

variable {σ : Type}

/-- Whether a machine lets out certain rows one after another and then ends, and looks far enough ahead. -/
inductive Produces (m : Machine σ) (store : Store) : σ → List Row → Prop where
  | done {s s' : σ} (ended : m.advance store s = (.ok none, s')) : Produces m store s []
  | more {s s' : σ} {row : Row} {rows : List Row} (next : m.advance store s = (.ok (some row), s'))
      (ahead : rows.length < m.ahead store s) (others : Produces m store s' rows) :
      Produces m store s (row :: rows)

theorem Produces.length_le {m : Machine σ} {store : Store} {s : σ} {rows : List Row}
    (produces : Produces m store s rows) :
    rows.length ≤ m.ahead store s := by
  cases produces with
  | done _ => exact Nat.zero_le _
  | more _ ahead _ => exact ahead

/-- Whether a machine that was never used can be opened, and what it then lets out. -/
def Delivers (m : Machine σ) (store : Store) (bindings : Bindings) (rows : List Row) : Prop :=
  (m.progress m.fresh).phase = .closed ∧
    ∃ s, m.launch store bindings m.fresh = (.ok (), s) ∧ Produces m store s rows

/-- A feed of rows delivers them. -/
theorem Feed.delivers (rows : List Row) (store : Store) (bindings : Bindings) :
    Delivers (machine (rows.map Except.ok)) store bindings rows := by
  have produces (left : List Row) (p : Progress) (running : p.phase = .running) :
      Produces (machine (rows.map Except.ok)) store ⟨p, left.map Except.ok⟩ left := by
    induction left generalizing p with
    | nil =>
      have ended : (machine (rows.map Except.ok)).advance store ⟨p, []⟩ =
          (.ok none, ⟨Progress.exhaust { p with current := none }, []⟩) := by
        simp only [machine, advance, Progress.begin_running running]
      exact .done ended
    | cons row left ih =>
      have next : (machine (rows.map Except.ok)).advance store ⟨p, (row :: left).map Except.ok⟩ =
          (.ok (some row),
            ⟨Progress.emit { p with current := none } row, left.map Except.ok⟩) := by
        simp only [machine, advance, Progress.begin_running running, List.map_cons]
      have enough : left.length <
          (machine (rows.map Except.ok)).ahead store ⟨p, (row :: left).map Except.ok⟩ := by
        show _ < ((row :: left).map Except.ok).length
        rw [List.length_map]
        exact Nat.lt_succ_self _
      exact .more next enough (ih _ running)
  exact ⟨rfl, _, rfl, produces rows _ rfl⟩

namespace Flatten

variable {parentType childType : RowType} {m : Machine σ} {store : Store}

theorem length_absorb (parentType childType : RowType) (l : Lookback) (row : Row) :
    (l.absorb parentType childType row).2.length + (l.absorb parentType childType row).1.released.length ≤
      l.released.length + 1 := by
  rcases l.absorb_cases parentType childType row with
    ⟨_, step⟩ | ⟨_, _, step⟩ | ⟨p, _, _, _, _, step⟩ | ⟨_, _, _, step⟩
  · rw [step]
    exact Nat.le_refl _
  · rw [step]
    simp [Lookback.released]
  · rw [step]
    simp [Lookback.released]
  · rw [step]
    simp [Nat.add_comm]

theorem length_flow (parentType childType : RowType) (l : Lookback) (rows : List Row) :
    (flow parentType childType l rows).length ≤ l.released.length + rows.length := by
  induction rows generalizing l with
  | nil => exact Nat.le_refl _
  | cons row rest ih =>
    have step := length_absorb parentType childType l row
    have others := ih (l.absorb parentType childType row).1
    rw [flow, List.length_append, List.length_cons]
    omega

/-- What is still to go out of a running join: while it reads, what is ready and what its input brings;
after that only what is ready. -/
inductive Pending (parentType childType : RowType) (m : Machine σ) (store : Store) (s : State σ) :
    List Row → Prop where
  | reading {rows : List Row} (running : s.progress.phase = .running) (going : s.ended = false)
      (input : Produces m store s.input rows) :
      Pending parentType childType m store s (s.output ++ flow parentType childType s.lookback rows)
  | spent (running : s.progress.phase = .running) (ended : s.ended = true) :
      Pending parentType childType m store s s.output

/-- A join answers with the first row that is to go out, and leaves the others. -/
def Answers (parentType childType : RowType) (m : Machine σ) (store : Store)
    (answer : Except QueryError (Option Row) × State σ) : List Row → Prop
  | [] => ∃ s', answer = (.ok none, s')
  | row :: rows =>
    ∃ s', answer = (.ok (some row), s') ∧ Pending parentType childType m store s' rows

theorem pull_over {s : State σ} (running : s.progress.phase = .running) (ended : s.ended = true)
    {fuel : Nat} (enough : 1 ≤ fuel) :
    Answers parentType childType m store (pull parentType childType m store fuel s) s.output := by
  obtain ⟨fuel, rfl⟩ : ∃ k, fuel = k + 1 := ⟨fuel - 1, by omega⟩
  rw [pull]
  cases s.output with
  | nil => exact ⟨_, if_pos ended⟩
  | cons row rest =>
    have left := @Pending.spent _ parentType childType m store
      { s with progress := s.progress.emit row, output := rest } running ended
    exact ⟨_, rfl, left⟩

/-- The loop of a join lasts to the next row that goes out. -/
theorem pull_reading {input : σ} {rows : List Row} (produces : Produces m store input rows)
    {s : State σ} (same : s.input = input) (running : s.progress.phase = .running)
    (going : s.ended = false) {fuel : Nat} (enough : rows.length + 2 ≤ fuel) :
    Answers parentType childType m store (pull parentType childType m store fuel s)
      (s.output ++ flow parentType childType s.lookback rows) := by
  obtain ⟨fuel, rfl⟩ : ∃ k, fuel = k + 1 := ⟨fuel - 1, by omega⟩
  have still : ¬ s.ended = true := by simp [going]
  induction produces generalizing s fuel with
  | @done input below ended =>
    rw [pull]
    cases s.output with
    | nil =>
      simp only [if_neg still, same, ended]
      exact @pull_over _ _ _ _ _
        { s with
          input := below, lookback := .noParent, output := s.lookback.released, ended := true }
        running rfl _ (by omega)
    | cons ready rest =>
      have whole : Produces m store s.input [] := by
        rw [same]
        exact .done ended
      have left := @Pending.reading _ parentType childType m store
        { s with progress := s.progress.emit ready, output := rest } _ running going whole
      exact ⟨_, rfl, left⟩
  | @more input below row rows next ahead others ih =>
    rw [pull]
    cases s.output with
    | nil =>
      simp only [if_neg still, same, next]
      rw [List.length_cons] at enough
      obtain ⟨fuel, rfl⟩ : ∃ k, fuel = k + 1 := ⟨fuel - 1, by omega⟩
      exact ih (s := { s with input := below, lookback := _, output := _ }) rfl running going
        fuel (by omega) still
    | cons ready rest =>
      have whole : Produces m store s.input (row :: rows) := by
        rw [same]
        exact .more next ahead others
      have left := @Pending.reading _ parentType childType m store
        { s with progress := s.progress.emit ready, output := rest } _ running going whole
      exact ⟨_, rfl, left⟩

namespace Pending

variable {s : State σ} {rows : List Row}

theorem answers (pending : Pending parentType childType m store s rows) :
    Answers parentType childType m store
      ((machine parentType childType m).advance store s) rows := by
  cases pending with
  | reading running going input =>
    have enough := input.length_le
    simp only [machine, advance, Progress.begin_running running]
    exact pull_reading (s := { s with progress := { s.progress with current := none } }) input
      rfl running going (by omega)
  | spent running ended =>
    simp only [machine, advance, Progress.begin_running running]
    exact pull_over (s := { s with progress := { s.progress with current := none } }) running
      ended (by omega)

theorem length_le (pending : Pending parentType childType m store s rows) :
    rows.length ≤ (machine parentType childType m).ahead store s := by
  show _ ≤ s.output.length + s.lookback.released.length + m.ahead store s.input
  cases pending with
  | @reading rows running going input =>
    have inside := input.length_le
    have flows := length_flow parentType childType s.lookback rows
    rw [List.length_append]
    omega
  | spent running ended => omega

/-- A running join lets out the rows that are still to go out. -/
theorem produces (pending : Pending parentType childType m store s rows) :
    Produces (machine parentType childType m) store s rows := by
  have answers := pending.answers
  have enough := pending.length_le
  clear pending
  induction rows generalizing s with
  | nil =>
    obtain ⟨s', ended⟩ := answers
    exact .done ended
  | cons row rows ih =>
    obtain ⟨s', next, pending⟩ := answers
    exact .more next enough (ih pending.answers pending.length_le)

end Pending

/-- A join of a machine's rows. -/
theorem delivers {bindings : Bindings} {rows : List Row} (input : Delivers m store bindings rows) :
    Delivers (machine parentType childType m) store bindings
      (flow parentType childType .noParent rows) := by
  obtain ⟨_, below, launched, produces⟩ := input
  have opened : (machine parentType childType m).launch store bindings
      (machine parentType childType m).fresh =
      (.ok (), reset { (machine parentType childType m).fresh with
        progress := Progress.fresh.start, input := below }) :=
    launch_ok (s := (machine parentType childType m).fresh) rfl launched
  refine ⟨rfl, _, opened, ?_⟩
  exact (@Pending.reading _ parentType childType m store
    (reset { (machine parentType childType m).fresh with
      progress := Progress.fresh.start, input := below })
    rows rfl rfl produces).produces

end Flatten

end Pipeline

/-- A run collects the rows that its machine lets out. -/
theorem Run.collect_of_produces {p : Pipeline} {store : Store} {s : p.State} {rows : List Row}
    (produces : Produces p.machine store s rows) {fuel : Nat} (enough : rows.length < fuel) :
    ∃ last, Run.collect store fuel ⟨p, s⟩ = (rows, none, ⟨p, last⟩) := by
  obtain ⟨fuel, rfl⟩ : ∃ k, fuel = k + 1 := ⟨fuel - 1, by omega⟩
  induction produces generalizing fuel with
  | @done s s' ended => exact ⟨s', by simp only [Run.collect, Run.advance, ended]⟩
  | more next ahead others ih =>
    rw [List.length_cons] at enough
    obtain ⟨fuel, rfl⟩ : ∃ k, fuel = k + 1 := ⟨fuel - 1, by omega⟩
    obtain ⟨last, collected⟩ := ih fuel (Nat.lt_of_succ_lt_succ enough)
    refine ⟨last, ?_⟩
    rw [Run.collect]
    simp only [Run.advance, next, collected]

namespace Execution

variable {p : Pipeline} {config : Config} {store : Store} {bindings : Bindings} {rows : List Row}

theorem create_eq {c : Catalog} {plan : Plan} (built : plan.build c = .ok p)
    (valid : config.batchSize ≠ 0) :
    create c plan config = .ok ⟨.fresh p, .empty, config, 0⟩ := by
  simp only [create, Config.validate, if_neg valid, built, Bind.bind, Except.bind,
    pure, Except.pure]

section Fresh

variable (delivers : Delivers p.machine store bindings rows)
include delivers

theorem not_isOpen (bindings' : Bindings) :
    ¬ (Execution.phase ⟨.fresh p, bindings', config, 0⟩).isOpen = true := by
  rw [show Execution.phase ⟨.fresh p, bindings', config, 0⟩ = .closed from delivers.1]
  decide

theorem bind_eq (bindings' : Bindings) (key : BindingKey) (binding : Binding) :
    Execution.bind ⟨.fresh p, bindings', config, 0⟩ key binding =
      .ok ⟨.fresh p, bindings'.set key binding, config, 0⟩ := by
  simp only [Execution.bind, if_neg (not_isOpen delivers bindings')]

/-- An execution collects what its machine delivers. -/
theorem collect_eq : (Execution.collect ⟨.fresh p, bindings, config, 0⟩ store).1 = .ok rows := by
  have shut := @not_isOpen p config store bindings rows delivers bindings
  obtain ⟨_, s, launched, produces⟩ := delivers
  obtain ⟨last, collected⟩ := Run.collect_of_produces produces (Nat.lt_succ_of_le produces.length_le)
  have opened : (Run.fresh p).launch store bindings = (.ok (), ⟨p, s⟩) := by
    simp only [Run.launch, Run.fresh, launched]
  have drained : (Run.mk p s).drain store = (rows, none, ⟨p, last⟩) := collected
  have closed : (Run.mk p last).close = (.ok (), ⟨p, (p.machine.close last).2⟩) :=
    Prod.ext (Run.closes _) rfl
  simp only [Execution.collect, Execution.launch, if_neg shut, opened, Execution.drain, drained,
    Execution.close, closed, Except.map]

end Fresh

/-- An execution of a plan collects what the plan's machine delivers. -/
theorem collect_of_delivers {c : Catalog} {plan : Plan} (built : plan.build c = .ok p)
    (valid : config.batchSize ≠ 0) (delivers : Delivers p.machine store .empty rows) :
    ∃ e, create c plan config = .ok e ∧ (e.collect store).1 = .ok rows :=
  ⟨_, create_eq built valid, collect_eq delivers⟩

end Execution

end Interleave
