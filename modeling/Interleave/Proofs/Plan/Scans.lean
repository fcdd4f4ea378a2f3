import Interleave.Proofs.Key.Preorder
import Interleave.Proofs.Pipeline.IndexStream
import Interleave.Proofs.Plan.FlattenChain
import Interleave.Proofs.Store.Ledger

/-!
Plans that scan. Main statements: over every store that was reached by insertions and deletions, a scan
of a group yields each row that the history left once, as it was inserted, in the order of a walk over
the hierarchy; a scan of an index yields an entry for each row whose tuple lies in the bound range.
-/

namespace Interleave

open Pipeline (Delivers)

theorem Plan.build_indexScan {c : Catalog} {id : IndexId} {i : Index} (found : c.index? id = some i)
    {scan : Pipeline.IndexScan} (isIndex : scan.rowType.indexId? = some id) :
    Plan.build c (.indexScan scan) = .ok (.indexScan scan) := by
  have known : isKnownIndex c scan.rowType = true := by
    rw [isKnownIndex, isIndex, Option.bind_some, found]
    rfl
  rw [build, if_pos known]

namespace Store

/-- The rows of a group are those of the ledger, each once. -/
theorem Keeps.perm_group {c : Catalog} {size : Nat} {s : Store} {rows : Set StoredRow} {l : Ledger}
    (keeps : Keeps c size s rows l) {g : Group} {stored : List StoredRow}
    (sorted : stored.Pairwise fun a b => a.key.bytes < b.key.bytes)
    (members : ∀ r, r ∈ stored ↔ r ∈ rows ∧ r.table.group = g.id) :
    (stored.map fun r => (r.table, r.values)).Perm (l.filter fun row => row.1.group = g.id) := by
  have distinct : (stored.map fun r => (r.table, r.values)).Nodup := by
    have apart : stored.Nodup :=
      sorted.imp fun {a b} less (same : a = b) => List.lt_irrefl b.key.bytes (same ▸ less)
    refine List.Nodup.map_on (fun r member r' member' same => ?_) apart
    obtain ⟨table, values⟩ := Prod.mk.inj same
    refine keeps.holds.mirrors.distinct r ((members r).1 member).1 r' ((members r').1 member').1 ?_
    rw [StoredRow.segment, StoredRow.segment, StoredRow.own, StoredRow.own, table, values]
  refine (List.perm_ext_iff_of_nodup distinct (keeps.once.filter _)).2 fun row => ?_
  obtain ⟨t, values⟩ := row
  rw [List.mem_map, List.mem_filter, decide_eq_true_iff, ← keeps.listed]
  constructor
  · rintro ⟨r, member, same⟩
    obtain ⟨rfl, rfl⟩ := Prod.mk.inj same
    exact ⟨⟨r.key, ((members r).1 member).1⟩, ((members r).1 member).2⟩
  · rintro ⟨⟨k, member⟩, group⟩
    exact ⟨⟨t, k, values⟩, (members _).2 ⟨member, group⟩, rfl⟩

/-- A scan of a group yields the rows of the group's tables, each once and as it was inserted, depth
first. -/
theorem groupScan_run {declarations : List Declaration} {c : Catalog}
    (accepted : Catalog.ofDeclarations declarations = .ok c) (plain : c.Plain)
    (config : Storage.EngineConfig) (batchSize : Nat) (changes : List Change) {g : Group}
    (inCatalog : g ∈ c.groups) {settings : Config} (valid : settings.batchSize ≠ 0) :
    ∃ e, ∃ stored : List StoredRow, Execution.create c (.groupScan g.id) settings = .ok e ∧
      (e.collect ((fresh c config batchSize).run changes)).1 = .ok (stored.map StoredRow.row) ∧
      (stored.map fun r => (r.table, r.values)).Perm
        ((Ledger.of c changes).filter fun row => row.1.group = g.id) ∧
      (∀ r, r ∈ stored ↔ ((fresh c config batchSize).run changes).HasRow r.table r.key r.values ∧
        r.table.group = g.id) ∧
      DepthFirst (stored.map StoredRow.key) := by
  have forest := Catalog.forest_of_declarations accepted
  obtain ⟨rows, keeps⟩ := keeps_run forest plain config batchSize changes
  have holds := keeps.holds
  have batches : 1 ≤ ((fresh c config batchSize).run changes).batchSize := by
    rw [keeps.batchSize]
    exact Nat.le_max_right batchSize 1
  have inCatalog' : g ∈ ((fresh c config batchSize).run changes).catalog.groups := by
    rwa [keeps.catalog]
  obtain ⟨stored, delivers, sorted, members⟩ :=
    Pipeline.GroupScan.delivers holds batches inCatalog' .empty
  obtain ⟨e, created, collected⟩ :=
    Execution.collect_of_delivers (Plan.build_groupScan (forest.group?_id inCatalog)) valid delivers
  refine ⟨e, stored, created, collected, keeps.perm_group sorted members, fun r => ?_,
    .of_sorted (List.pairwise_map.2 sorted)⟩
  rw [members, holds.hasRow_iff]

/-- An item that waits for its order, an order without a customer, and a customer who comes, goes and
comes back. -/
def shopChanges : List Change :=
  [.insert ⟨3⟩ [.int 7, .int 5], .insert ⟨2⟩ [.int 5, .int 1], .insert ⟨1⟩ [.int 1, .text "a"],
    .delete ⟨1⟩ (.int 1), .insert ⟨1⟩ [.int 1, .text "b"]]

/-- A scan of the shop, one row a batch. -/
theorem groupScan_run_shop : Catalog.ofDeclarations shopDeclarations = .ok shop ∧ shop.Plain ∧
    (⟨⟨1⟩, "shop", ⟨1⟩⟩ : Group) ∈ shop.groups ∧ Config.standard.batchSize ≠ 0 ∧
    ∃ e, ∃ stored : List StoredRow, Execution.create shop (.groupScan ⟨1⟩) .standard = .ok e ∧
      (e.collect ((fresh shop .standard 1).run shopChanges)).1 = .ok (stored.map StoredRow.row) ∧
      (stored.map fun r => (r.table, r.values)).Perm
        ((Ledger.of shop shopChanges).filter fun row => row.1.group = ⟨1⟩) ∧
      (∀ r, r ∈ stored ↔ ((fresh shop .standard 1).run shopChanges).HasRow r.table r.key r.values ∧
        r.table.group = ⟨1⟩) ∧
      DepthFirst (stored.map StoredRow.key) := by
  have inCatalog : (⟨⟨1⟩, "shop", ⟨1⟩⟩ : Group) ∈ shop.groups := by simp [shop]
  have valid : Config.standard.batchSize ≠ 0 := by decide
  exact ⟨shop_accepted, shop_plain, inCatalog, valid,
    groupScan_run shop_accepted shop_plain .standard 1 shopChanges inCatalog valid⟩

/-- A scan of an index that is bound to a range yields an entry for each row of the indexed table whose
tuple lies in the range, by tuples and then by row keys; a crossed range has none. -/
theorem indexScan_run {declarations : List Declaration} {c : Catalog}
    (accepted : Catalog.ofDeclarations declarations = .ok c) (plain : c.Plain)
    (config : Storage.EngineConfig) (batchSize : Nat) (changes : List Change) {id : IndexId}
    {i : Index} (found : c.index? id = some i) {scan : Pipeline.IndexScan}
    (typed : c.indexType? id = some scan.rowType) {range : IndexRange}
    (fits : range.width ≤ i.columns.length) {settings : Config} (valid : settings.batchSize ≠ 0) :
    ∃ t e e', ∃ stored : List StoredRow, c.table? i.table = some t ∧
      Execution.create c (.indexScan scan) settings = .ok e ∧
      e.bind scan.bindingKey (.range range) = .ok e' ∧
      (e'.collect ((fresh c config batchSize).run changes)).1 = .ok (stored.map (i.row t)) ∧
      (∀ r, r ∈ stored ↔ ((fresh c config batchSize).run changes).HasRow r.table r.key r.values ∧
        r.table = t ∧ range.Admits (i.tuple r.values)) ∧
      stored.Pairwise (fun a b =>
        (List.compareLex Value.keyOrder (i.tuple a.values) (i.tuple b.values)).then
          (a.key.order b.key) = .lt) ∧
      (range.Crossed → stored = []) := by
  have forest := Catalog.forest_of_declarations accepted
  have fit := Catalog.indexesFit_of_declarations accepted
  obtain ⟨rows, keeps⟩ := keeps_run forest plain config batchSize changes
  have holds := keeps.holds
  have batches : 1 ≤ ((fresh c config batchSize).run changes).batchSize := by
    rw [keeps.batchSize]
    exact Nat.le_max_right batchSize 1
  have bound : (Bindings.empty.set scan.bindingKey (.range range)).range? scan.bindingKey =
      .ok (some range) := by
    rw [Bindings.range?, Bindings.get?_set]
  have scans := @Pipeline.IndexScan.delivers _ rows holds batches
  rw [keeps.catalog] at scans
  obtain ⟨t, on, stored, delivers, sorted, members⟩ := scans fit found typed fits bound
  obtain ⟨t', on', type, _⟩ := fit.indexType?_eq_some found
  have isIndex : scan.rowType.indexId? = some id := by
    rw [Option.some.inj (typed.symm.trans type), ← (fit.index?_eq_some found).2]
    rfl
  have built := Plan.build_indexScan found isIndex
  have delivers : Delivers (Pipeline.indexScan scan).machine _ _ _ := delivers
  refine ⟨t, _, _, stored, on, Execution.create_eq built valid,
    Execution.bind_eq delivers .empty scan.bindingKey (.range range),
    Execution.collect_eq delivers, fun r => ?_, sorted, fun crossed => ?_⟩
  · rw [members, holds.hasRow_iff]
  · refine List.eq_nil_iff_forall_not_mem.2 fun r member => ?_
    exact IndexRange.not_admits_of_crossed (by rwa [i.length_tuple]) crossed
      ((members r).1 member).2.2

/-- Customers by name from "b" on, one entry a batch. -/
theorem indexScan_run_shop : Catalog.ofDeclarations shopDeclarations = .ok shop ∧ shop.Plain ∧
    shop.index? ⟨1⟩ = some ⟨⟨1⟩, "by_name", ⟨1⟩, [1]⟩ ∧
    shop.indexType? ⟨1⟩ = some (.index ⟨1⟩ ⟨1⟩ "by_name" ["customer.name"]) ∧
    (IndexRange.atLeast ⟨[.text "b"], true⟩).width ≤ [1].length ∧ Config.standard.batchSize ≠ 0 ∧
    ∃ t e e', ∃ stored : List StoredRow, shop.table? ⟨1⟩ = some t ∧
      Execution.create shop
        (.indexScan ⟨0, .index ⟨1⟩ ⟨1⟩ "by_name" ["customer.name"], none, true⟩) .standard = .ok e ∧
      e.bind (.operator 0) (.range (.atLeast ⟨[.text "b"], true⟩)) = .ok e' ∧
      (e'.collect ((fresh shop .standard 1).run shopChanges)).1 =
        .ok (stored.map (Index.row ⟨⟨1⟩, "by_name", ⟨1⟩, [1]⟩ t)) ∧
      (∀ r, r ∈ stored ↔ ((fresh shop .standard 1).run shopChanges).HasRow r.table r.key r.values ∧
        r.table = t ∧ (IndexRange.atLeast ⟨[.text "b"], true⟩).Admits
          (Index.tuple ⟨⟨1⟩, "by_name", ⟨1⟩, [1]⟩ r.values)) ∧
      stored.Pairwise (fun a b => (List.compareLex Value.keyOrder
          (Index.tuple ⟨⟨1⟩, "by_name", ⟨1⟩, [1]⟩ a.values)
          (Index.tuple ⟨⟨1⟩, "by_name", ⟨1⟩, [1]⟩ b.values)).then (a.key.order b.key) = .lt) ∧
      ((IndexRange.atLeast ⟨[.text "b"], true⟩).Crossed → stored = []) := by
  have found : shop.index? ⟨1⟩ = some ⟨⟨1⟩, "by_name", ⟨1⟩, [1]⟩ := rfl
  have typed : shop.indexType? ⟨1⟩ = some (.index ⟨1⟩ ⟨1⟩ "by_name" ["customer.name"]) := by
    decide
  have fits : (IndexRange.atLeast ⟨[.text "b"], true⟩).width ≤ [1].length := by decide
  have valid : Config.standard.batchSize ≠ 0 := by decide
  exact ⟨shop_accepted, shop_plain, found, typed, fits, valid,
    indexScan_run shop_accepted shop_plain .standard 1 shopChanges found typed fits valid⟩

end Store

end Interleave
