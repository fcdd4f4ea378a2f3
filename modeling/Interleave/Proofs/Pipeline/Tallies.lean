import Interleave.Proofs.Pipeline.Safety
import Interleave.Proofs.Store.Commits

/-!
How many rows come out. A scan counts the rows that it reads and a selection those that it drops, and both
count on when they are opened again. Main statements: over a store that may change between any two calls, a
scan has given as many rows as it has read; and a selection has given those of its input that it has not
dropped, if its predicate says yes or no to each row that comes in.
-/

namespace Interleave

open Storage (Entry)
open Storage.Layout (IsPlain)

namespace Traversal

section Stock

variable (Known : Store → Prop) (Good : Row → Prop) (keyspace : String) (kind : EntryKind)

/-- Whether an entry shows one row of a certain kind in all of certain stores. -/
def Offers (e : Entry) : Prop :=
  ∃ row, Good row ∧ ∀ store, Known store → Shows store kind e row

/-- Whether a keyspace has only such entries in these stores. -/
structure Supplies : Prop where
  plain : IsPlain keyspace
  batches : ∀ store, Known store → 1 ≤ store.engine.cursorBatch
  offers : ∀ store, Known store → ∀ e : Entry, store.contents.getIn? keyspace e.1 = some e.2 →
    Offers Known Good kind e

/-- Whether a traversal of a keyspace has only such entries in its batch. -/
structure Stocked (t : Traversal) : Prop where
  space : t.keyspace = keyspace
  offers : ∀ e ∈ t.batch, Offers Known Good kind e
  kind : t.kind = kind

end Stock

variable {Known : Store → Prop} {Good : Row → Prop} {keyspace : String} {kind : EntryKind} {store : Store}
  {t t' : Traversal}

theorem stocked_between (bounds : Option (Storage.Bound × Storage.Bound)) :
    Stocked Known Good keyspace kind (between store keyspace kind bounds) := by
  cases bounds <;> exact ⟨rfl, nofun, rfl⟩

/-- A traversal that takes an entry stands on the row that it shows. -/
theorem Shows.take {e : Entry} {row : Row} (shows : Shows store kind e row) (same : t.kind = kind) :
    ∃ t', t.take e = (.ok true, t') ∧ t'.keyspace = t.keyspace ∧ t'.batch = t.batch ∧ t'.kind = kind ∧
      t'.currentRow store = .ok row := by
  obtain ⟨values, bytes, key, split, read, stands⟩ := shows
  exact ⟨_, t.take_of_reads (same.symm ▸ split) read, rfl, rfl, same, stands _ same rfl rfl rfl⟩

/-- The entries of a batch are such as were stored when the batch was read, and the row that one of them
shows later is still a row of that time. -/
theorem Stocked.advance (stocked : Stocked Known Good keyspace kind t)
    (supplies : Supplies Known Good keyspace kind) (known : Known store)
    {answer : Except QueryError Bool} (advanced : t.advance store = (answer, t')) :
    Stocked Known Good keyspace kind t' ∧
      ∀ row, answer = .ok true → t'.currentRow store = .ok row → Good row := by
  have ready : Stocked Known Good keyspace kind
      (if t.batch.isEmpty && t.hasMore then t.fill store else t) := by
    split
    · refine ⟨stocked.space, fun e member => supplies.offers store known e ?_, stocked.kind⟩
      obtain ⟨stored, _⟩ := mem_fill (stocked.space.symm ▸ supplies.plain)
        (supplies.batches store known) member
      exact stocked.space ▸ stored
    · exact stocked
  simp only [Traversal.advance] at advanced
  generalize (if t.batch.isEmpty && t.hasMore then t.fill store else t) = t at ready advanced
  rcases batch : t.batch with _ | ⟨e, rest⟩ <;> simp only [batch] at advanced
  · cases advanced
    refine ⟨⟨ready.space, List.forall_mem_nil _, ready.kind⟩, fun row ended => ?_⟩
    cases ended
  · have offers := ready.offers
    rw [batch] at offers
    obtain ⟨⟨row, good, shows⟩, others⟩ := List.forall_mem_cons.1 offers
    obtain ⟨u, taken, space, left, kind, stands⟩ :=
      (shows store known).take (t := { t with batch := rest }) ready.kind
    obtain ⟨rfl, rfl⟩ := Prod.mk.inj (taken.symm.trans advanced)
    refine ⟨⟨space.trans ready.space, left ▸ others, kind⟩, fun row' _ stood => ?_⟩
    exact Except.ok.inj (stands.symm.trans stood) ▸ good

end Traversal

namespace Pipeline

variable {σ : Type}

/-- Whether a machine that has given so many rows gives one more, of a certain kind, or gives none. -/
inductive Tallied (Good : Row → Prop) (Given : Nat → σ → Prop) (n : Nat) :
    Except QueryError (Option Row) × σ → Prop where
  | row {row : Row} {s : σ} (good : Good row) (given : Given (n + 1) s) :
    Tallied Good Given n (.ok (some row), s)
  | ended {s : σ} (given : Given n s) : Tallied Good Given n (.ok none, s)
  | failed {e : QueryError} {s : σ} (given : Given n s) : Tallied Good Given n (.error e, s)

/-- Whether a machine has read as many rows as it has dropped and given, in whatever order it is opened,
advanced and closed, each time over one of certain stores. -/
structure Tallies (m : Machine σ) (Known : Store → Prop) (Good : Row → Prop) (Given : Nat → σ → Prop) :
    Prop where
  counted {n : Nat} {s : σ} (given : Given n s) : (m.counters s).read = (m.counters s).filtered + n
  fresh : Given 0 m.fresh
  launch {n : Nat} {store : Store} (bindings : Bindings) {s : σ} (known : Known store)
    (given : Given n s) : Given n (m.launch store bindings s).2
  advance {n : Nat} {store : Store} {s : σ} (known : Known store) (given : Given n s) :
    Tallied Good Given n (m.advance store s)
  close {n : Nat} {s : σ} (given : Given n s) : Given n (m.close s).2

/-- An operator that does not look for a row gives none. -/
theorem Progress.proceed_tallied {Good : Row → Prop} {Given : Nat → σ → Prop} {n : Nat} {s : σ}
    {search : Except QueryError (Option Row) × σ} (operator : String) (p : Progress) (given : Given n s)
    (searched : Tallied Good Given n search) :
    Tallied Good Given n (proceed (p.begin operator).1 s search) := by
  rcases p.begin_cases operator with ⟨_, begun⟩ | ⟨_, begun⟩ | ⟨_, begun⟩ <;> rw [begun]
  · exact .failed given
  · exact .ended given
  · exact searched

variable {Known : Store → Prop} {Good : Row → Prop} {store : Store} {n : Nat}

namespace Scan

variable {keyspace : String} {kind : EntryKind} {name label : String} {s : State}

/-- A scan has given the rows that it has read. -/
structure Given (Known : Store → Prop) (Good : Row → Prop) (keyspace : String) (kind : EntryKind) (n : Nat)
    (s : State) : Prop where
  read : s.read = n
  stocked : ∀ t, s.traversal = some t → Traversal.Stocked Known Good keyspace kind t

section Supplies

variable (supplies : Traversal.Supplies Known Good keyspace kind)
include supplies

theorem pull_tallied (known : Known store) (given : Given Known Good keyspace kind n s) :
    Tallied Good (Given Known Good keyspace kind) n (pull label store s) := by
  rw [pull]
  rcases opened : s.traversal with _ | t
  · exact .failed given
  rcases advanced : t.advance store with ⟨answer, t'⟩
  obtain ⟨stocked, good⟩ := (given.stocked t opened).advance supplies known advanced
  have stocked : ∀ u, some t' = some u → Traversal.Stocked Known Good keyspace kind u :=
    fun u same => Option.some.inj same ▸ stocked
  simp only [advanced]
  rcases answer with e | _ | _
  · exact .failed ⟨given.read, stocked⟩
  · exact .ended ⟨given.read, stocked⟩
  · rcases stood : t'.currentRow store with e | row
    · exact .failed ⟨given.read, stocked⟩
    · exact .row (good row rfl stood) ⟨congrArg (· + 1) given.read, stocked⟩

/-- A scan of a keyspace tallies. -/
theorem tallies {traversed : Store → Bindings → Except QueryError Traversal}
    (finds : ∀ {store bindings t}, Known store → traversed store bindings = .ok t →
      ∃ bounds, t = .between store keyspace kind bounds) :
    Tallies (traversing name label traversed) Known Good (Given Known Good keyspace kind) where
  counted {n s} given := given.read.trans (Nat.zero_add n).symm
  fresh := ⟨rfl, nofun⟩
  launch {n store} bindings {s} known given := by
    show Given Known Good keyspace kind n (launch name (traversed store bindings) s).2
    rcases launched : launch name (traversed store bindings) s with ⟨e | _, s'⟩
    · obtain rfl := launch_eq_error launched
      exact given
    · obtain ⟨t, found, rfl⟩ := launch_eq_ok launched
      obtain ⟨bounds, rfl⟩ := finds known found
      exact ⟨given.read, fun t same => Option.some.inj same ▸ Traversal.stocked_between bounds⟩
  advance {n store s} known given := by
    have begun : Given Known Good keyspace kind n
        { s with progress := { s.progress with current := none } } := ⟨given.read, given.stocked⟩
    exact Progress.proceed_tallied name s.progress begun (pull_tallied supplies known begun)
  close given := ⟨given.read, nofun⟩

end Supplies

end Scan

namespace Select

variable {m : Machine σ} {InputGiven : Nat → σ → Prop} {target : RowType} {predicate : Predicate}
  {s : State σ}

/-- A selection has given what its input has given and it has not dropped. -/
def Given (InputGiven : Nat → σ → Prop) (n : Nat) (s : State σ) : Prop :=
  InputGiven (s.filtered + n) s.input

section Tallies

variable (input : Tallies m Known Good InputGiven)
  (decides : ∀ row, Good row → row.rowType.same target = true →
    ∃ verdict, predicate.evaluate row = .ok verdict)
include input decides

/-- Each row that comes in is given or dropped. It is lost to both counts only if the predicate fails. -/
theorem pull_tallied (known : Known store) (given : Given InputGiven n s) (fuel : Nat) :
    Tallied Good (Given InputGiven) n (pull target predicate m store fuel s) := by
  induction fuel generalizing s with
  | zero => exact .failed given
  | succ fuel ih =>
    have told := input.advance known given
    rcases answer : m.advance store s.input with ⟨e | _ | row, below⟩ <;> rw [answer] at told <;>
      simp only [pull, answer]
    · cases told with
      | failed given => exact .failed given
    · cases told with
      | ended given => exact .ended given
    · cases told with
      | row good given =>
        rcases judged : judge target predicate s.dropped row with ⟨e | _ | _, dropped⟩
        · obtain ⟨same, failed⟩ := judge_error judged
          obtain ⟨verdict, decided⟩ := decides row good same
          cases failed.symm.trans decided
        · have fewer : InputGiven (s.filtered + 1 + n) below := by
            rwa [Nat.add_right_comm]
          exact ih (s := ⟨s.progress, below, dropped, s.filtered + 1⟩) fewer
        · exact .row good given

/-- A selection tallies if its input does. -/
theorem tallies : Tallies (machine target predicate m) Known Good (Given InputGiven) where
  counted {n s} given := by
    have counted := input.counted given
    simp only [machine, Counters.add]
    omega
  fresh := input.fresh
  launch {n store} bindings {s} known given := by
    have below := input.launch bindings known given
    show Given InputGiven n (launch m store bindings s).2
    rw [launch_eq]
    exact Progress.openOver_holds (P := Given InputGiven n) given below below
  advance {n store s} known given := by
    have begun : Given InputGiven n { s with progress := { s.progress with current := none } } := given
    exact Progress.proceed_tallied name s.progress begun (pull_tallied input decides known begun _)
  close given := input.close given

end Tallies

end Select

end Pipeline

end Interleave
