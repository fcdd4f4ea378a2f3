import Interleave.Proofs.Pipeline.Stages
import Interleave.Proofs.Store.Orders

/-!
Plans that join down a path of tables. Main statement: over every store that was filled by insertions
without null keys, such a plan is accepted, runs to its end, and its fully joined rows are the lines of
stored rows along foreign keys, in key order.
-/

namespace Interleave

open Pipeline (Delivers Flatten.flowAll)

/-- Joins with one table after another above a plan whose rows have a type. -/
def Plan.flattenAll (type : RowType) (plan : Plan) : List Table → Plan
  | [] => plan
  | t :: rest => flattenAll (.flattened type t.rowType) (.flatten type t.rowType plan) rest

def Pipeline.flattenAll (type : RowType) (p : Pipeline) : List Table → Pipeline
  | [] => p
  | t :: rest => flattenAll (.flattened type t.rowType) (.flatten type t.rowType p) rest

theorem Plan.build_groupScan {c : Catalog} {id : GroupId} {g : Group} (found : c.group? id = some g) :
    Plan.build c (.groupScan id) = .ok (.groupScan id) := by
  simp only [build, checkGroup, found, Option.isSome_some, if_true]
  rfl

theorem RowType.EndsAt.tableId_eq {type : RowType} {t : Table} (ends : type.EndsAt t) :
    type.tableId = t.id :=
  ends.tableId_of_same (RowType.same_refl type)

theorem RowType.EndsAt.not_index {type : RowType} {t : Table} (ends : type.EndsAt t) :
    type.isIndex = false := by
  rcases ends with rfl | ⟨parent, rfl⟩
  · rfl
  · rfl

section Build

variable {c : Catalog} (forest : c.Forest)
include forest

theorem Plan.joinsParentAndChild_of_links {type : RowType} {last t : Table}
    (ends : type.EndsAt last) {column : Nat} (member : t ∈ c.tables)
    (link : c.Links last t column) : joinsParentAndChild c type t.rowType = true := by
  have found : c.table? t.rowType.tableId = some t := forest.table?_id member
  rw [joinsParentAndChild, ends.not_index, found, ends.tableId_eq]
  simp [link.2, Table.rowType, RowType.isIndex, RowType.indexId?]

/-- Joins down a path of tables are accepted. -/
theorem Plan.build_flattenAll {rest : List Table} (known : ∀ t ∈ rest, t ∈ c.tables)
    {type : RowType} {last : Table} (ends : type.EndsAt last)
    (linked : (last :: rest).IsChain fun p t => ∃ column, c.Links p t column) {plan : Plan}
    {p : Pipeline} (built : plan.build c = .ok p) :
    (plan.flattenAll type rest).build c = .ok (p.flattenAll type rest) := by
  induction rest generalizing type last plan p with
  | nil => exact built
  | cons t rest ih =>
    rw [List.isChain_cons_cons] at linked
    obtain ⟨⟨column, link⟩, linked⟩ := linked
    have joins := joinsParentAndChild_of_links forest ends (known t (List.mem_cons_self ..)) link
    apply ih (fun u member => known u (List.mem_cons_of_mem _ member)) (.inr ⟨type, rfl⟩) linked
    simp only [build, joins, built]
    rfl

end Build

theorem Pipeline.delivers_flattenAll {store : Store} {bindings : Bindings} {rest : List Table}
    {type : RowType} {p : Pipeline} {rows : List Row}
    (delivers : Delivers p.machine store bindings rows) :
    Delivers (p.flattenAll type rest).machine store bindings (Flatten.flowAll type rows rest) := by
  induction rest generalizing type p rows with
  | nil => exact delivers
  | cons t rest ih =>
    have next : Delivers (Pipeline.flatten type t.rowType p).machine store bindings _ :=
      Flatten.delivers delivers
    exact ih next

namespace Store

/-- The joins of a path of tables over a store whose rows are at their places. -/
theorem Holds.flattenAll {s : Store} {rows : Set StoredRow} (holds : s.Holds rows)
    (seated : Seated s.catalog rows) (batches : 1 ≤ s.batchSize) {first : Table} {rest : List Table}
    (known : ∀ t ∈ first :: rest, t ∈ s.catalog.tables)
    (linked : (first :: rest).IsChain fun p t => ∃ column, s.catalog.Links p t column)
    {settings : Config} (valid : settings.batchSize ≠ 0) :
    ∃ e out, Execution.create s.catalog
      (Plan.flattenAll first.rowType (.groupScan first.group) rest) settings = .ok e ∧
      (e.collect s).1 = .ok out ∧
      ((out.filter fun row => row.rowType.same (first.rowType.joinAll rest)).Pairwise fun a b =>
        ∃ k k', a.key = some k ∧ b.key = some k' ∧ k.order k' = .lt) ∧
      ∀ row, row ∈ out.filter (fun row => row.rowType.same (first.rowType.joinAll rest)) ↔
        ∃ line, Line rows (first :: rest) line ∧
          row = joinedRow (first.rowType.joinAll rest) line := by
  have forest := holds.forest
  have knownFirst := known first (List.mem_cons_self ..)
  have knownRest : ∀ t ∈ rest, t ∈ s.catalog.tables :=
    fun t member => known t (List.mem_cons_of_mem _ member)
  obtain ⟨g, inCatalog, found, _⟩ := forest.groupName_spec knownFirst
  have number : g.id = first.group := (forest.group?_eq_some found).2
  obtain ⟨stored, delivers, sorted, members⟩ :=
    Pipeline.GroupScan.delivers holds batches inCatalog .empty
  rw [number] at delivers members
  have base := staged_group forest holds.mirrors members knownFirst sorted
  obtain ⟨above, last, late, path, staged⟩ :=
    base.steps forest holds.mirrors seated knownRest linked
  have whole := Plan.build_flattenAll forest knownRest (.inl rfl) linked
    (Plan.build_groupScan found)
  obtain ⟨e, created, collected⟩ :=
    Execution.collect_of_delivers whole valid (Pipeline.delivers_flattenAll delivers)
  have results := staged.results
  rw [path, List.nil_append] at results
  exact ⟨e, _, created, collected, results⟩

/-- Joins down a path of tables compute the relational join along foreign keys. -/
theorem flattenAll_run {declarations : List Declaration} {c : Catalog}
    (accepted : Catalog.ofDeclarations declarations = .ok c) (plain : c.Plain)
    (config : Storage.EngineConfig) (batchSize : Nat) {l : List (TableId × List Value)}
    (nulls : ∀ row ∈ l, ∀ t, c.table? row.1 = some t → primaryKey t row.2 ≠ .null)
    {first : Table} {rest : List Table} (known : ∀ t ∈ first :: rest, t ∈ c.tables)
    (linked : (first :: rest).IsChain fun p t => ∃ column, c.Links p t column)
    {settings : Config} (valid : settings.batchSize ≠ 0) :
    ∃ e out, Execution.create c
      (Plan.flattenAll first.rowType (.groupScan first.group) rest) settings = .ok e ∧
      (e.collect ((fresh c config batchSize).run (insertions l))).1 = .ok out ∧
      ((out.filter fun row => row.rowType.same (first.rowType.joinAll rest)).Pairwise fun a b =>
        ∃ k k', a.key = some k ∧ b.key = some k' ∧ k.order k' = .lt) ∧
      ∀ row, row ∈ out.filter (fun row => row.rowType.same (first.rowType.joinAll rest)) ↔
        ∃ line, Line ((fresh c config batchSize).run (insertions l)).rows (first :: rest) line ∧
          row = joinedRow (first.rowType.joinAll rest) line := by
  have forest := Catalog.forest_of_declarations accepted
  obtain ⟨rows, grown⟩ := (holds_fresh forest plain config batchSize).grows l
  have holds := grown.holds
  have catalog : ((fresh c config batchSize).run (insertions l)).catalog = c := grown.catalog
  have batches : 1 ≤ ((fresh c config batchSize).run (insertions l)).batchSize := by
    rw [grown.batchSize]
    exact Nat.le_max_right batchSize 1
  have tells : ∀ r ∈ rows, r.table.parent = none ∨ c.Tells r.table r.own := by
    intro r member
    have found := holds.forest.table?_id (holds.mirrors.valid r member).known
    rw [catalog] at found
    rcases grown.asked r member with ⟨_, none⟩ | asked
    · exact none.elim
    · exact .inr fun null => absurd null (nulls _ asked r.table found)
  have seated : Seated c rows := grown.seated tells fun r member => member.elim
  have joins := @Holds.flattenAll _ rows holds
  rw [catalog] at joins
  rw [holds.rows_eq]
  exact joins seated batches known linked valid

theorem shopRows_notNull :
    ∀ row ∈ shopRows, ∀ t, shop.table? row.1 = some t → primaryKey t row.2 ≠ .null := by
  intro row member t found
  have first : ∀ t ∈ shop.tables, t.primaryKey = 0 := by decide +kernel
  have values : ∀ row ∈ shopRows, ((row.2[0]?).getD Value.null).keyForm ≠ .null := by decide +kernel
  rw [primaryKey, first t ((Catalog.forest_of_declarations shop_accepted).table?_eq_some found).1]
  exact values row member

/-- Items with their orders and customers. -/
theorem flattenAll_run_shop : Catalog.ofDeclarations shopDeclarations = .ok shop ∧ shop.Plain ∧
    (∀ row ∈ shopRows, ∀ t, shop.table? row.1 = some t → primaryKey t row.2 ≠ .null) ∧
    ∃ e out, Execution.create shop
        (Plan.flattenAll shopCustomer.rowType (.groupScan ⟨1⟩) [shopOrder, shopItem])
        .standard = .ok e ∧
      (e.collect ((fresh shop .standard 256).run (insertions shopRows))).1 = .ok out ∧
      ((out.filter fun row =>
          row.rowType.same (shopCustomer.rowType.joinAll [shopOrder, shopItem])).Pairwise
        fun a b => ∃ k k', a.key = some k ∧ b.key = some k' ∧ k.order k' = .lt) ∧
      ∀ row, row ∈ out.filter (fun row =>
          row.rowType.same (shopCustomer.rowType.joinAll [shopOrder, shopItem])) ↔
        ∃ line, Line ((fresh shop .standard 256).run (insertions shopRows)).rows
            [shopCustomer, shopOrder, shopItem] line ∧
          row = joinedRow (shopCustomer.rowType.joinAll [shopOrder, shopItem]) line := by
  have customer := shop_known shopCustomer (by simp)
  have order := shop_known shopOrder (by simp)
  have linked : [shopCustomer, shopOrder, shopItem].IsChain
      fun p t => ∃ column, shop.Links p t column :=
    .cons_cons ⟨1, customer, rfl⟩ (.cons_cons ⟨1, order, rfl⟩ (.singleton shopItem))
  exact ⟨shop_accepted, shop_plain, shopRows_notNull,
    flattenAll_run shop_accepted shop_plain .standard 256 shopRows_notNull shop_known linked
      (by decide)⟩

end Store

end Interleave
