import Interleave.Proofs.Key.Chains
import Interleave.Proofs.Pipeline.Pruning
import Interleave.Proofs.Plan.Lookups

/-!
Selections over an index. The entries of an index come by tuples, not by keys, so what lies below a dropped
entry need not follow it in one block. It does not have to: the keys of one table are all as deep as each
other, wherever the rows were put, and so none lies below another. Main statement: a stack of selections
over a scan of an index yields the entries of the scan that pass all predicates, in the order of the scan.
-/

namespace Interleave

open Pipeline (Delivers)

namespace Predicate

/-- Whether a predicate says yes to a row. -/
def accepts (predicate : Predicate) (row : Row) : Bool :=
  match predicate.evaluate row with
  | .ok verdict => verdict
  | .error _ => false

/-- Whether a predicate says yes or no to each of certain rows. -/
def Decides (predicate : Predicate) (rows : List Row) : Prop :=
  ∀ row ∈ rows, ∃ verdict, predicate.evaluate row = .ok verdict

theorem not_rejects {predicate : Predicate} {target : RowType} {rows : List Row} {row : Row}
    (decides : predicate.Decides rows) (member : row ∈ rows) (type : row.rowType.same target = true) :
    (!Pipeline.Select.rejects target predicate row) = predicate.accepts row := by
  obtain ⟨verdict, evaluated⟩ := decides row member
  rw [Pipeline.Select.rejects, accepts, type, evaluated]
  exact Bool.not_not verdict

/-- A comparison says yes or no to rows that have its field. -/
theorem comparison_decides {c : Comparison} {rows : List Row}
    (wide : ∀ row ∈ rows, c.field < row.values.length) : (comparison c).Decides rows := by
  intro row member
  rw [evaluate, Comparison.evaluate, List.getElem?_eq_getElem (wide row member)]
  split
  · contradiction
  split <;> exact ⟨_, rfl⟩

end Predicate

/-- Keys of one table do not lie below each other. -/
theorem Catalog.Follows.not_isAbove {c : Catalog} {t : Table} {k k' : RowKey} (follows : c.Follows t k)
    (follows' : c.Follows t k') (written : k.IsWritten) (written' : k'.IsWritten) :
    k.isAbove k' = false := by
  rw [← Bool.not_eq_true, RowKey.isAbove_iff_segments written written']
  rintro ⟨below, nonempty, split⟩
  have deep : k'.depth = k.depth := follows'.depth_eq.trans follows.depth_eq.symm
  have deeper : k'.depth = k.depth + below.length := by
    rw [RowKey.depth, RowKey.depth, split, List.length_append]
  have positive := List.length_pos_iff.2 nonempty
  omega

/-- The entries of an index for valid rows of one table do not lie below each other. -/
theorem Index.row_apart {c : Catalog} {t : Table} {stored : List StoredRow} (i : Index)
    (valid : ∀ r ∈ stored, r.Valid c ∧ r.table = t) :
    (stored.map (i.row t)).Pairwise fun a b => a.isAbove b = false := by
  rw [List.pairwise_map]
  refine List.pairwise_of_forall_mem_list fun r member r' member' => ?_
  obtain ⟨stands, rfl⟩ := valid r member
  obtain ⟨stands', same⟩ := valid r' member'
  exact stands.follows.not_isAbove (same ▸ stands'.follows) stands.written stands'.written

namespace Pipeline

/-- Selections on one row type on top of each other. -/
def selectAll (target : RowType) (predicates : List Predicate) (input : Pipeline) : Pipeline :=
  predicates.foldr (.select target) input

/-- Over rows of the target type none of which lies below an earlier one a stack of selections is one
filter. -/
theorem delivers_selectAll {p : Pipeline} {store : Store} {bindings : Bindings} {rows : List Row}
    {target : RowType} {predicates : List Predicate} (delivers : Delivers p.machine store bindings rows)
    (typed : ∀ row ∈ rows, row.rowType.same target = true)
    (apart : rows.Pairwise fun a b => a.isAbove b = false)
    (decides : ∀ predicate ∈ predicates, predicate.Decides rows) :
    Delivers (p.selectAll target predicates).machine store bindings
      (rows.filter fun row => predicates.all fun predicate => predicate.accepts row) := by
  induction predicates with
  | nil =>
    simp only [List.all_nil, List.filter_true]
    exact delivers
  | cons predicate predicates ih =>
    have input := ih fun p' later => decides p' (List.mem_cons_of_mem _ later)
    have told := decides predicate List.mem_cons_self
    refine Select.delivers input ?_
    rw [Select.sift_of_apart (apart.filter _)
      (fun row member _ => told row (List.mem_of_mem_filter member)) fun _ _ => rfl, List.filter_filter]
    refine congrArg (List.map Except.ok) (List.filter_congr fun row member => ?_)
    rw [Predicate.not_rejects told member (typed row member), List.all_cons]

end Pipeline

namespace Plan

/-- Selections on one row type on top of each other. -/
def selectAll (target : RowType) (predicates : List Predicate) (input : Plan) : Plan :=
  predicates.foldr (.select target) input

theorem build_selectAll {c : Catalog} {input : Plan} {p : Pipeline} (built : input.build c = .ok p)
    (target : RowType) (predicates : List Predicate) :
    (input.selectAll target predicates).build c = .ok (p.selectAll target predicates) := by
  induction predicates with
  | nil => exact built
  | cons predicate predicates ih =>
    have below : (input.selectAll target (predicate :: predicates)).build c =
        (input.selectAll target predicates).build c >>= fun q => pure (.select target predicate q) := rfl
    rw [below, ih]
    rfl

end Plan

namespace Store

/-- Selections on the entries of an index, above a scan of the index that is bound to a range, yield the
entries of the scan that pass all predicates, in the order of the scan. -/
theorem indexFilter_run {declarations : List Declaration} {c : Catalog}
    (accepted : Catalog.ofDeclarations declarations = .ok c) (plain : c.Plain)
    (config : Storage.EngineConfig) (batchSize : Nat) (changes : List Change) {id : IndexId}
    {i : Index} (found : c.index? id = some i) {scan : Pipeline.IndexScan}
    (typed : c.indexType? id = some scan.rowType) {range : IndexRange}
    (fits : range.width ≤ i.columns.length) {settings : Config} (valid : settings.batchSize ≠ 0) :
    ∃ e e' rows, Execution.create c (.indexScan scan) settings = .ok e ∧
      e.bind scan.bindingKey (.range range) = .ok e' ∧
      (e'.collect ((fresh c config batchSize).run changes)).1 = .ok rows ∧
      ∀ predicates : List Predicate, (∀ predicate ∈ predicates, predicate.Decides rows) →
        ∃ f f', Execution.create c (.selectAll scan.rowType predicates (.indexScan scan)) settings = .ok f ∧
          f.bind scan.bindingKey (.range range) = .ok f' ∧
          (f'.collect ((fresh c config batchSize).run changes)).1 =
            .ok (rows.filter fun row => predicates.all fun predicate => predicate.accepts row) := by
  have forest := Catalog.forest_of_declarations accepted
  have fit := Catalog.indexesFit_of_declarations accepted
  generalize reached : (fresh c config batchSize).run changes = s
  obtain ⟨holds, batches, rfl⟩ := holds_of_run forest plain config batchSize reached
  have bound : (Bindings.empty.set scan.bindingKey (.range range)).range? scan.bindingKey =
      .ok (some range) := by
    rw [Bindings.range?, Bindings.get?_set]
  obtain ⟨t, on, stored, entries, _, members⟩ :=
    Pipeline.IndexScan.delivers holds batches fit found typed fits bound
  obtain ⟨t', on', type, _⟩ := fit.indexType?_eq_some found
  obtain rfl := Option.some.inj (on'.symm.trans on)
  have rowType : scan.rowType = i.rowType t' := Option.some.inj (typed.symm.trans type)
  have isIndex : scan.rowType.indexId? = some id := by
    rw [rowType, ← (fit.index?_eq_some found).2]
    rfl
  have built := Plan.build_indexScan found isIndex
  have entries : Delivers (Pipeline.indexScan scan).machine _ _ _ := entries
  refine ⟨_, _, _, Execution.create_eq built valid,
    Execution.bind_eq entries .empty scan.bindingKey (.range range),
    Execution.collect_eq entries, fun predicates decides => ?_⟩
  have same : ∀ row ∈ stored.map (i.row t'), row.rowType.same scan.rowType = true := by
    rw [rowType]
    exact List.forall_mem_map.2 fun r _ => RowType.same_refl _
  have apart := i.row_apart fun r listed =>
    ⟨holds.mirrors.valid r ((members r).1 listed).1, ((members r).1 listed).2.1⟩
  have filtered := Pipeline.delivers_selectAll entries same apart decides
  exact ⟨_, _, Execution.create_eq (Plan.build_selectAll built scan.rowType predicates) valid,
    Execution.bind_eq filtered .empty scan.bindingKey (.range range), Execution.collect_eq filtered⟩

/-- Three customers, of whom one came, went and came back. -/
def shopVisits : List Change :=
  shopChanges ++ [.insert ⟨1⟩ [.int 2, .text "c"], .insert ⟨1⟩ [.int 3, .text "d"]]

/-- Not the first customer, and not the last. -/
def shopFilters : List Predicate :=
  [.comparison ⟨0, .ne, .text "b"⟩, .comparison ⟨0, .lt, .text "d"⟩]

/-- The customer in the middle stays, though the one before is dropped. -/
theorem indexFilter_run_shop : Catalog.ofDeclarations shopDeclarations = .ok shop ∧ shop.Plain ∧
    shop.index? ⟨1⟩ = some ⟨⟨1⟩, "by_name", ⟨1⟩, [1]⟩ ∧
    shop.indexType? ⟨1⟩ = some shopScan.rowType ∧
    (IndexRange.atLeast ⟨[.text "b"], true⟩).width ≤ [1].length ∧ Config.standard.batchSize ≠ 0 ∧
    ∃ e e' rows, Execution.create shop (.indexScan shopScan) .standard = .ok e ∧
      e.bind (.operator 0) (.range (.atLeast ⟨[.text "b"], true⟩)) = .ok e' ∧
      (e'.collect ((fresh shop .standard 1).run shopVisits)).1 = .ok rows ∧
      rows.map Row.values = [[.text "b"], [.text "c"], [.text "d"]] ∧
      (∀ predicate ∈ shopFilters, predicate.Decides rows) ∧
      ∃ f f', Execution.create shop (.selectAll shopScan.rowType shopFilters (.indexScan shopScan))
          .standard = .ok f ∧
        f.bind (.operator 0) (.range (.atLeast ⟨[.text "b"], true⟩)) = .ok f' ∧
        (f'.collect ((fresh shop .standard 1).run shopVisits)).1 =
          .ok (rows.filter fun row => shopFilters.all fun predicate => predicate.accepts row) ∧
        (rows.filter fun row => shopFilters.all fun predicate => predicate.accepts row).map Row.values =
          [[.text "c"]] := by
  have found : shop.index? ⟨1⟩ = some ⟨⟨1⟩, "by_name", ⟨1⟩, [1]⟩ := rfl
  have typed : shop.indexType? ⟨1⟩ = some shopScan.rowType := by decide
  have fits : (IndexRange.atLeast ⟨[.text "b"], true⟩).width ≤ [1].length := by decide
  have valid : Config.standard.batchSize ≠ 0 := by decide
  obtain ⟨e, e', rows, created, bound, collected, filters⟩ :=
    indexFilter_run shop_accepted shop_plain .standard 1 shopVisits found typed fits valid
  change e.bind (.operator 0) (.range (.atLeast ⟨[.text "b"], true⟩)) = .ok e' at bound
  have computed : ((Execution.create shop (.indexScan shopScan) .standard).bind fun e =>
      (e.bind (.operator 0) (.range (.atLeast ⟨[.text "b"], true⟩))).bind fun e' =>
        (e'.collect ((fresh shop .standard 1).run shopVisits)).1.map (List.map Row.values)) =
      .ok [[.text "b"], [.text "c"], [.text "d"]] := by
    decide +kernel
  rw [created, Except.bind, bound, Except.bind, collected, Except.map, Except.ok.injEq] at computed
  have decides : ∀ predicate ∈ shopFilters, predicate.Decides rows := by
    have wide : ∀ row ∈ rows, 0 < row.values.length := by
      have lengths : ∀ values ∈ rows.map Row.values, 0 < values.length := by
        rw [computed]
        decide
      exact fun row member => lengths row.values (List.mem_map_of_mem member)
    exact List.forall_mem_cons.2 ⟨Predicate.comparison_decides wide,
      List.forall_mem_singleton.2 (Predicate.comparison_decides wide)⟩
  obtain ⟨f, f', created', bound', collected'⟩ := filters shopFilters decides
  change f.bind (.operator 0) (.range (.atLeast ⟨[.text "b"], true⟩)) = .ok f' at bound'
  have computed' : ((Execution.create shop
      (.selectAll shopScan.rowType shopFilters (.indexScan shopScan)) .standard).bind fun f =>
        (f.bind (.operator 0) (.range (.atLeast ⟨[.text "b"], true⟩))).bind fun f' =>
          (f'.collect ((fresh shop .standard 1).run shopVisits)).1.map (List.map Row.values)) =
      .ok [[.text "c"]] := by
    decide +kernel
  rw [created', Except.bind, bound', Except.bind, collected', Except.map, Except.ok.injEq] at computed'
  exact ⟨shop_accepted, shop_plain, found, typed, fits, valid, e, e', rows, created, bound, collected,
    computed, decides, f, f', created', bound', collected', computed'⟩

end Store

end Interleave
