import Interleave.Proofs.Pipeline.Tallies
import Interleave.Proofs.Plan.Safety
import Interleave.Proofs.Plan.IndexFilters

/-!
No row is lost. Main statement: whatever is asked of an execution of selections over a scan, in any order and
over any number of runs, and however the store changes between two calls, after each call as many rows were
read as were dropped and produced.
-/

namespace Interleave

open Pipeline (IndexScan Tallies)

namespace Plan

/-- Whether a plan is a scan of a group or of an index. -/
def IsScan : Plan → Prop
  | groupScan _ => True
  | indexScan _ => True
  | _ => False

/-- Selections on top of each other, each on its own row type, the last one at the bottom. -/
def selectEach (filters : List (RowType × Predicate)) (input : Plan) : Plan :=
  filters.foldr (fun filter input => .select filter.1 filter.2 input) input

/-- Whether a plan may give a row over one of certain stores. -/
def MayGiveOver (Known : Store → Prop) (source : Plan) (row : Row) : Prop :=
  ∃ s, Known s ∧ source.MayGive s row

/-- Whether predicates say yes or no to the rows of their types that a plan may give over certain stores. -/
def Decided (Known : Store → Prop) (source : Plan) (filters : List (RowType × Predicate)) : Prop :=
  ∀ filter ∈ filters, ∀ row, source.MayGiveOver Known row → row.rowType.same filter.1 = true →
    ∃ verdict, filter.2.evaluate row = .ok verdict

section Tallies

variable {c : Catalog} (plain : c.Plain) {Known : Store → Prop}
  (stores : ∀ s, Known s → s.Holds s.rows ∧ s.catalog = c)
include plain stores

/-- What a group holds in some of the stores shows a row of that store in all of them. -/
theorem groupScan_supplies {g : Group} (inCatalog : g ∈ c.groups) :
    Traversal.Supplies Known ((groupScan g.id).MayGiveOver Known) (Store.groupSpace g.name) .row where
  plain := Keyspace.group_plain (plain.groups g inCatalog)
  batches s known := (stores s known).1.batches
  offers s known e stored := by
    obtain ⟨holds, rfl⟩ := stores s known
    have within : e ∈ s.contents.between (Store.groupSpace g.name) .unbounded .unbounded :=
      Storage.ByteMap.mem_between_iff.2 ⟨stored, rfl, rfl⟩
    obtain ⟨r, member, inside, rfl⟩ := (holds.mem_group_iff inCatalog).1 within
    refine ⟨r.row, ⟨s, known, .stored (holds.hasRow_iff.2 member) inside⟩, fun s' known' => ?_⟩
    obtain ⟨holds', same⟩ := stores s' known'
    exact StoredRow.Valid.shows holds'.forest (same ▸ holds.mirrors.valid r member)

variable (fit : c.IndexesFit)
include fit

/-- What an index holds in some of the stores shows an entry of that store in all of them. -/
theorem indexScan_supplies {scan : IndexScan} {id : IndexId} {i : Index} {t : Table}
    (isIndex : scan.rowType.indexId? = some id) (found : c.index? id = some i)
    (on : c.table? i.table = some t) :
    Traversal.Supplies Known ((indexScan scan).MayGiveOver Known) (Store.indexSpace i.name)
      (.index i.columns.length (i.rowType t)) where
  plain := Keyspace.index_plain (plain.indexes i (fit.index?_eq_some found).1)
  batches s known := (stores s known).1.batches
  offers s known e stored := by
    obtain ⟨holds, rfl⟩ := stores s known
    obtain ⟨empty, key, values, row, bytes⟩ :=
      (holds.indexed (fit.index?_eq_some found).1 on e.1 e.2).1 stored
    obtain rfl : e = i.entry ⟨t, key, values⟩ := Prod.ext bytes empty
    refine ⟨i.row t ⟨t, key, values⟩, ⟨s, known, .entry isIndex found on row⟩, fun s' _ => ?_⟩
    exact Index.shows (holds.mirrors.valid _ (holds.hasRow_iff.1 row)).written i t

variable (forest : c.Forest)
include forest

/-- A scan tallies over the stores of a catalog. -/
theorem scan_tallies {source : Plan} (isScan : source.IsScan) {p : Pipeline}
    (built : source.build c = .ok p) :
    ∃ Given, Tallies p.machine Known (source.MayGiveOver Known) Given := by
  cases source with
  | groupScan group =>
    obtain ⟨g, found, rfl⟩ := build_groupScan_eq_ok built
    obtain ⟨inCatalog, rfl⟩ := forest.group?_eq_some found
    refine ⟨_, Pipeline.Scan.tallies (groupScan_supplies plain stores inCatalog)
      fun {store _ _} known traversed => ?_⟩
    rw [← (stores store known).2] at found
    obtain rfl := Except.ok.inj ((Store.traverseGroup_eq found).symm.trans traversed)
    exact ⟨_, rfl⟩
  | indexScan scan =>
    obtain ⟨id, i, isIndex, found, rfl⟩ := build_indexScan_eq_ok built
    obtain ⟨t, on, typed, _⟩ := fit.indexType?_eq_some found
    refine ⟨_, Pipeline.Scan.tallies (indexScan_supplies plain stores fit isIndex found on)
      fun {store _ _} known traversed => ?_⟩
    obtain ⟨id', range, isIndex', _, traversed⟩ := Pipeline.Scan.traverseRange_eq_ok traversed
    obtain rfl := Option.some.inj (isIndex.symm.trans isIndex')
    rw [← (stores store known).2] at found typed
    obtain rfl := Except.ok.inj ((Store.traverseIndex_eq found typed range).symm.trans traversed)
    exact ⟨_, rfl⟩
  | select | flatten | indexLookup => exact isScan.elim

/-- Selections over a scan tally if their predicates say yes or no to the rows of the scan. -/
theorem tallies {source : Plan} (isScan : source.IsScan) {filters : List (RowType × Predicate)}
    (decided : source.Decided Known filters) {p : Pipeline}
    (built : (source.selectEach filters).build c = .ok p) :
    ∃ Given, Tallies p.machine Known (source.MayGiveOver Known) Given := by
  induction filters generalizing p with
  | nil => exact scan_tallies plain stores fit forest isScan built
  | cons filter filters ih =>
    obtain ⟨below, builtInput, rfl⟩ := build_select_eq_ok built
    obtain ⟨first, others⟩ := List.forall_mem_cons.1 decided
    obtain ⟨Given, input⟩ := ih others builtInput
    exact ⟨_, Pipeline.Select.tallies input first⟩

end Tallies

end Plan

section Calls

variable {p : Pipeline} {Known : Store → Prop} {Good : Row → Prop} {Given : Nat → p.State → Prop}
  {store : Store}

/-- What is collected is given. -/
theorem Run.collect_given (tallies : Tallies p.machine Known Good Given) (known : Known store) {n fuel : Nat}
    {s : p.State} (given : Given n s) {rows : List Row} {ending : Option QueryError} {r : Run}
    (collected : Run.collect store fuel ⟨p, s⟩ = (rows, ending, r)) :
    ∃ t, r = ⟨p, t⟩ ∧ Given (n + rows.length) t := by
  induction fuel generalizing n s rows with
  | zero =>
    cases collected
    exact ⟨s, rfl, given⟩
  | succ fuel ih =>
    have told := tallies.advance known given
    rcases answered : p.machine.advance store s with ⟨error | _ | row, t⟩ <;> rw [answered] at told <;>
      simp only [Run.collect, Run.advance, answered] at collected
    · cases collected
      cases told with
      | failed given => exact ⟨t, rfl, given⟩
    · cases collected
      cases told with
      | ended given => exact ⟨t, rfl, given⟩
    · rcases rest : Run.collect store fuel ⟨p, t⟩ with ⟨others, ending, r⟩
      rw [rest] at collected
      cases collected
      cases told with
      | row _ given =>
        obtain ⟨t, same, given⟩ := ih given rest
        rw [List.length_cons, Nat.add_comm others.length, ← Nat.add_assoc]
        exact ⟨t, same, given⟩

namespace Execution

variable {e : Execution}

/-- Whether an execution has produced what its tree has given. -/
def Accounts (p : Pipeline) (Given : Nat → p.State → Prop) (e : Execution) : Prop :=
  ∃ s bindings config produced, e = ⟨⟨p, s⟩, bindings, config, produced⟩ ∧ Given produced s

section Tallies

variable (tallies : Tallies p.machine Known Good Given)
include tallies

theorem Accounts.counted (accounts : e.Accounts p Given) :
    e.counters.read = e.counters.filtered + e.produced := by
  obtain ⟨s, bindings, config, produced, rfl, given⟩ := accounts
  exact tallies.counted given

theorem Accounts.close (accounts : e.Accounts p Given) : e.close.2.Accounts p Given := by
  obtain ⟨s, bindings, config, produced, rfl, given⟩ := accounts
  exact ⟨(p.machine.close s).2, bindings, config, produced, rfl, tallies.close given⟩

variable (known : Known store)
include known

theorem Accounts.launch (accounts : e.Accounts p Given) : (e.launch store).2.Accounts p Given := by
  rw [Execution.launch]
  split
  · exact accounts
  · obtain ⟨s, bindings, config, produced, rfl, given⟩ := accounts
    have given := tallies.launch bindings known given
    rcases launched : p.machine.launch store bindings s with ⟨error | _, s'⟩ <;> rw [launched] at given <;>
      simp only [Run.launch, launched]
    · exact ⟨_, bindings, config, produced, rfl, tallies.close given⟩
    · exact ⟨s', bindings, config, produced, rfl, given⟩

theorem Accounts.next (accounts : e.Accounts p Given) : (e.next store).2.Accounts p Given := by
  obtain ⟨s, bindings, config, produced, rfl, given⟩ := accounts
  have told := tallies.advance known given
  rcases answered : p.machine.advance store s with ⟨error | _ | row, t⟩ <;> rw [answered] at told <;>
    simp only [Execution.next, Run.advance, answered]
  · cases told with
    | failed given => exact ⟨t, bindings, config, produced, rfl, given⟩
  · cases told with
    | ended given => exact ⟨t, bindings, config, produced, rfl, given⟩
  · cases told with
    | row _ given => exact ⟨t, bindings, config, produced + 1, rfl, given⟩

theorem Accounts.collect (accounts : e.Accounts p Given) : (e.collect store).2.Accounts p Given := by
  have opened := accounts.launch tallies known
  rw [Execution.collect]
  rcases launched : e.launch store with ⟨error | _, e'⟩ <;> rw [launched] at opened
  · exact opened
  · obtain ⟨s, bindings, config, produced, rfl, given⟩ := opened
    rcases drained : Run.drain ⟨p, s⟩ store with ⟨rows, ending, r⟩
    obtain ⟨t, rfl, given⟩ := Run.collect_given tallies known given drained
    have closed := tallies.close given
    simp only [drain, drained]
    cases ending <;> exact ⟨_, bindings, config, _, rfl, closed⟩

/-- Whatever is asked of an execution, it keeps account. -/
theorem Accounts.after (accounts : e.Accounts p Given) (call : Call) :
    (e.after store call).Accounts p Given := by
  cases call with
  | bind key binding =>
    rw [Execution.after, Execution.bind]
    split
    next bound =>
      split at bound
      · cases bound
      · obtain rfl := Except.ok.inj bound
        obtain ⟨s, bindings, config, produced, rfl, given⟩ := accounts
        exact ⟨s, _, config, produced, rfl, given⟩
    · exact accounts
  | launch => exact accounts.launch tallies known
  | advance => exact accounts.next tallies known
  | next => exact accounts.next tallies known
  | currentRow => exact accounts
  | collect => exact accounts.collect tallies known
  | count =>
    rw [Execution.after, count_eq]
    exact accounts.collect tallies known
  | close => exact accounts.close tallies

end Tallies

end Execution

end Calls

/-- What happens while an execution is in use: someone writes to the store, or asks the execution. -/
inductive Turn where
  | write (change : Change)
  | ask (call : Call)

/-- The change to the store, if there is one. -/
def Turn.change? : Turn → Option Change
  | write change => some change
  | ask _ => none

/-- Whether a store is met on the way through some turns. -/
def Store.Meets (start : Store) (turns : List Turn) (s : Store) : Prop :=
  ∃ changes, changes <+: turns.filterMap Turn.change? ∧ start.run changes = s

namespace Execution

/-- The store and an execution after a turn. -/
def follow : Store × Execution → Turn → Store × Execution
  | (store, e), .write change => (store.after change, e)
  | (store, e), .ask call => (store, e.after store call)

/-- The store and an execution after some turns. -/
def through (e : Execution) (store : Store) (turns : List Turn) : Store × Execution :=
  turns.foldl follow (store, e)

/-- However the store changes between two calls, an execution keeps account. -/
theorem Accounts.through {p : Pipeline} {Known : Store → Prop} {Good : Row → Prop}
    {Given : Nat → p.State → Prop} (tallies : Tallies p.machine Known Good Given) {store : Store}
    {e : Execution} (accounts : e.Accounts p Given) {turns : List Turn}
    (known : ∀ s, store.Meets turns s → Known s) : (e.through store turns).2.Accounts p Given := by
  induction turns generalizing store e with
  | nil => exact accounts
  | cons turn turns ih =>
    cases turn with
    | write change =>
      refine ih accounts fun s ⟨changes, early, reached⟩ => known s ⟨change :: changes, ?_, reached⟩
      exact (List.prefix_cons_inj change).2 early
    | ask call =>
      have met : store.Meets (.ask call :: turns) store := ⟨[], List.nil_prefix, rfl⟩
      exact ih (accounts.after tallies (known store met) call) known

/-- After each turn an execution of selections over a scan has read as many rows as it has dropped and
produced, if the predicates say yes or no to the rows of their types that the scan may give on the way. -/
theorem counts_conserved {declarations : List Declaration} {c : Catalog}
    (accepted : Catalog.ofDeclarations declarations = .ok c) (plain : c.Plain)
    (config : Storage.EngineConfig) (batchSize : Nat) {source : Plan} (isScan : source.IsScan)
    {filters : List (RowType × Predicate)} {settings : Config} {first : Execution}
    (made : create c (source.selectEach filters) settings = .ok first) {turns : List Turn}
    (decided : source.Decided ((Store.fresh c config batchSize).Meets turns) filters) :
    ∀ done store e, done <+: turns → first.through (Store.fresh c config batchSize) done = (store, e) →
      e.counters.read = e.counters.filtered + e.produced := by
  intro done store e early reached
  have forest := Catalog.forest_of_declarations accepted
  have fit := Catalog.indexesFit_of_declarations accepted
  have stores : ∀ s, (Store.fresh c config batchSize).Meets turns s → s.Holds s.rows ∧ s.catalog = c := by
    rintro s ⟨changes, _, reached⟩
    obtain ⟨holds, _, catalog⟩ := Store.holds_of_run forest plain config batchSize reached
    exact ⟨holds, catalog⟩
  obtain ⟨p, built, new⟩ := create_eq_ok made
  obtain ⟨Given, tallies⟩ := Plan.tallies plain stores fit forest isScan decided built
  have accounts : first.Accounts p Given := ⟨_, _, _, _, new, tallies.fresh⟩
  have met : ∀ s, (Store.fresh c config batchSize).Meets done s →
      (Store.fresh c config batchSize).Meets turns s := by
    rintro s ⟨changes, begun, reached⟩
    exact ⟨changes, begun.trans (early.filterMap Turn.change?), reached⟩
  have last := accounts.through tallies met
  rw [reached] at last
  exact last.counted tallies

/-- Orders from 6 on and customers who are called b are dropped, with all that belongs to them. -/
def shopDrops : List (RowType × Predicate) :=
  [(shopOrder.rowType, .comparison ⟨0, .lt, .int 6⟩),
    (shopCustomer.rowType, .comparison ⟨1, .ne, .text "b"⟩)]

/-- A run that is given up, after a customer has left, and two runs over what is there later. -/
def shopTurns : List Turn :=
  Store.shopVisits.map .write ++
    [.write (.insert ⟨2⟩ [.int 6, .int 3]), .ask .launch, .ask .next, .write (.delete ⟨1⟩ (.int 2)),
      .ask .next, .ask .close, .ask .collect, .write (.insert ⟨1⟩ [.int 4, .text "e"]), .ask .count]

/-- The tables of the shop have two columns. -/
theorem length_of_mayGive_shop {changes : List Change} {row : Row}
    (gives : Plan.MayGive ((Store.fresh shop .standard 1).run changes) (.groupScan ⟨1⟩) row) :
    row.values.length = 2 := by
  have forest := Catalog.forest_of_declarations shop_accepted
  generalize reached : (Store.fresh shop .standard 1).run changes = s at gives
  obtain ⟨holds, _, catalog⟩ := Store.holds_of_run forest shop_plain .standard 1 reached
  cases gives with
  | @stored _ t _ _ row inside =>
    have valid := holds.mirrors.valid _ (holds.hasRow_iff.1 row)
    have known := valid.known
    rw [catalog] at known
    have one : t = shopCustomer ∨ t = shopOrder ∨ t = shopItem := by simpa [shop] using known
    rcases one with rfl | rfl | rfl <;> exact valid.counted

theorem counts_conserved_shop : ∃ first,
    Catalog.ofDeclarations shopDeclarations = .ok shop ∧ shop.Plain ∧ (Plan.groupScan ⟨1⟩).IsScan ∧
      create shop ((Plan.groupScan ⟨1⟩).selectEach shopDrops) .standard = .ok first ∧
      (Plan.groupScan ⟨1⟩).Decided ((Store.fresh shop .standard 1).Meets shopTurns) shopDrops ∧
      (first.through (Store.fresh shop .standard 1) shopTurns).2.counters = ⟨16, 11⟩ ∧
      ∀ done store e, done <+: shopTurns →
        first.through (Store.fresh shop .standard 1) done = (store, e) →
          e.counters.read = e.counters.filtered + e.produced := by
  obtain ⟨first, made⟩ : ∃ first,
    create shop ((Plan.groupScan ⟨1⟩).selectEach shopDrops) .standard = .ok first := ⟨_, rfl⟩
  have isScan : (Plan.groupScan ⟨1⟩).IsScan := trivial
  have decided : (Plan.groupScan ⟨1⟩).Decided ((Store.fresh shop .standard 1).Meets shopTurns)
      shopDrops := by
    intro filter member row ⟨_, ⟨changes, _, reached⟩, gives⟩ _
    subst reached
    have width := length_of_mayGive_shop gives
    have compares (c : Comparison) (inside : c.field < 2) :
        ∃ verdict, (Predicate.comparison c).evaluate row = .ok verdict :=
      Predicate.comparison_decides (List.forall_mem_singleton.2 (width ▸ inside)) row List.mem_cons_self
    rcases List.mem_pair.1 member with rfl | rfl
    · exact compares _ (by decide)
    · exact compares _ (by decide)
  have conserved := counts_conserved shop_accepted shop_plain .standard 1 isScan made decided
  refine ⟨first, shop_accepted, shop_plain, isScan, made, decided, ?_, conserved⟩
  obtain rfl := Except.ok.inj made
  decide +kernel

end Execution

end Interleave
