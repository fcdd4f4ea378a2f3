import Interleave.Proofs.Pipeline.Expansion
import Interleave.Proofs.Plan.Scans

/-!
Plans that look rows up. An accepted lookup asks for tables above the indexed one, in the order of the
path. Main statement: over any well-formed contents of its group a lookup answers its input's entries one
after another, each with its wanted ancestors, its row and the rows below it, or with one error, which
leaves the entries after it as they are.
-/

namespace Interleave

open Pipeline (Machine Delivers Reports IndexLookup LookupScope)
open Storage (ByteMap)

namespace Plan

variable {c : Catalog}

theorem ancestorTables_eq_ok {table : TableId} {done tables : List TableId} {wanted : List RowType}
    (ok : ancestorTables c table done wanted = .ok tables) :
    (∀ id, id ∈ tables ↔ id ∈ done ∨ id ∈ wanted.map RowType.tableId) ∧
      ∀ w ∈ wanted, c.isAncestor w.tableId table = true := by
  induction wanted generalizing done with
  | nil =>
    obtain rfl := Except.ok.inj ok
    simp
  | cons w wanted ih =>
    simp only [ancestorTables] at ok
    split at ok
    · cases ok
    next fits =>
    rw [Bool.or_eq_true, not_or, Bool.not_eq_true', Bool.not_eq_false] at fits
    obtain ⟨members, true_ancestors⟩ := ih ok
    refine ⟨fun id => ?_, List.forall_mem_cons.2 ⟨fits.2, true_ancestors⟩⟩
    rw [members, List.map_cons, List.mem_cons]
    by_cases again : done.contains w.tableId = true
    · have known : w.tableId ∈ done := by simpa using again
      rw [if_pos again]
      constructor
      · rintro (before | later)
        · exact .inl before
        · exact .inr (.inr later)
      · rintro (before | rfl | later)
        · exact .inl before
        · exact .inl known
        · exact .inr later
    · rw [if_neg again, List.mem_append, List.mem_singleton, or_assoc]

/-- An accepted lookup reads entries of an index on a table of its group, and looks for the wanted tables
in the order of the path. -/
theorem checkLookup_eq_ok {group : GroupId} {ancestors : List RowType} {input : Plan}
    {tables : List TableId} (ok : checkLookup c group ancestors input = .ok tables) :
    ∃ id t, input.indexedTable? = some id ∧ c.table? id = some t ∧ t.group = group ∧
      (∀ w ∈ ancestors, c.isAncestor w.tableId id = true) ∧
      tables = ((c.path id).map Table.id).filter (ancestors.map RowType.tableId).contains := by
  unfold checkLookup at ok
  obtain ⟨_, _, ok⟩ := bind_eq_ok ok
  split at ok
  · cases ok
  next id indexed =>
  split at ok
  · cases ok
  next inside =>
  obtain ⟨found, wanted, same⟩ := bind_eq_ok ok
  obtain ⟨members, ancestor⟩ := ancestorTables_eq_ok wanted
  obtain rfl := Except.ok.inj same
  obtain ⟨t, known, group⟩ := Option.map_eq_some_iff.1 (not_not.1 inside)
  refine ⟨id, t, indexed, known, group, ancestor, List.filter_congr fun table _ => ?_⟩
  rw [Bool.eq_iff_iff, List.contains_iff_mem, List.contains_iff_mem, members]
  simp

theorem build_groupScan_eq_ok {group : GroupId} {p : Pipeline} (ok : build c (.groupScan group) = .ok p) :
    ∃ g, c.group? group = some g ∧ p = .groupScan group := by
  obtain ⟨_, checked, ok⟩ := bind_eq_ok ok
  rw [checkGroup] at checked
  split at checked
  next known =>
    obtain ⟨g, found⟩ := Option.isSome_iff_exists.1 known
    exact ⟨g, found, (Except.ok.inj ok).symm⟩
  · cases checked

theorem build_indexScan_eq_ok {scan : Pipeline.IndexScan} {p : Pipeline}
    (ok : build c (.indexScan scan) = .ok p) :
    ∃ id i, scan.rowType.indexId? = some id ∧ c.index? id = some i ∧ p = .indexScan scan := by
  rw [build] at ok
  split at ok
  next known =>
    obtain ⟨i, found⟩ := Option.isSome_iff_exists.1 known
    obtain ⟨id, isIndex, found⟩ := Option.bind_eq_some_iff.1 found
    exact ⟨id, i, isIndex, found, (Except.ok.inj ok).symm⟩
  · cases ok

theorem build_select_eq_ok {target : RowType} {predicate : Predicate} {input : Plan} {p : Pipeline}
    (ok : build c (.select target predicate input) = .ok p) :
    ∃ below, build c input = .ok below ∧ p = .select target predicate below := by
  obtain ⟨below, built, ok⟩ := bind_eq_ok ok
  exact ⟨below, built, (Except.ok.inj ok).symm⟩

theorem build_flatten_eq_ok {parent child : RowType} {input : Plan} {p : Pipeline}
    (ok : build c (.flatten parent child input) = .ok p) :
    ∃ below, build c input = .ok below ∧ p = .flatten parent child below := by
  rw [build] at ok
  split at ok
  · cases ok
  obtain ⟨below, built, ok⟩ := bind_eq_ok ok
  exact ⟨below, built, (Except.ok.inj ok).symm⟩

theorem build_indexLookup_eq_ok {group : GroupId} {ancestors : List RowType} {scope : LookupScope}
    {input : Plan} {p : Pipeline}
    (ok : build c (.indexLookup group ancestors scope input) = .ok p) :
    ∃ tables below, checkLookup c group ancestors input = .ok tables ∧ build c input = .ok below ∧
      p = .indexLookup ⟨group, tables, scope⟩ below := by
  rw [build] at ok
  obtain ⟨tables, checked, ok⟩ := bind_eq_ok ok
  obtain ⟨below, built, ok⟩ := bind_eq_ok ok
  exact ⟨tables, below, checked, built, (Except.ok.inj ok).symm⟩

end Plan

namespace Store

/-- A lookup answers entry by entry as the contents of its group say. -/
theorem indexLookup_reports {declarations : List Declaration} {c : Catalog}
    (accepted : Catalog.ofDeclarations declarations = .ok c) (config : Storage.EngineConfig)
    (batchSize : Nat) (contents : ByteMap) {s : Store}
    (made : s = (fresh c config batchSize).withContents contents) {g : Group}
    (inCatalog : g ∈ c.groups) (wellFormed : s.WellFormed g) {ancestors : List RowType}
    {scope : LookupScope} {input : Plan} {p : Pipeline}
    (built : Plan.build c (.indexLookup g.id ancestors scope input) = .ok p) {t : Table}
    (indexed : input.indexedTable?.bind c.table? = some t) {σ : Type} {m : Machine σ}
    {bindings : Bindings} {entries : List Row} (delivers : Delivers m s bindings entries)
    (keyed : ∀ entry ∈ entries, ∃ k, entry.key = some k ∧ c.Follows t k ∧
      RowKey.ofBytes k.bytes = .ok k) :
    ∃ lookup below state, ∃ outcomes : List (List (Except QueryError Row)),
      p = .indexLookup lookup below ∧ Plan.build c input = .ok below ∧
      (IndexLookup.machine lookup m).launch s bindings (IndexLookup.machine lookup m).fresh =
        (.ok (), state) ∧
      List.Forall₂ (fun entry answers => ∃ k, entry.key = some k ∧
        IndexLookup.Expansion s g (ancestors.map RowType.tableId) scope k answers)
        entries outcomes ∧
      Reports (IndexLookup.machine lookup m) s state outcomes.flatten := by
  have forest := Catalog.forest_of_declarations accepted
  obtain ⟨tables, below, checked, builtInput, rfl⟩ := Plan.build_indexLookup_eq_ok built
  obtain ⟨id, t', found, known, group, above, ordered⟩ := Plan.checkLookup_eq_ok checked
  rw [found, Option.bind_some, known] at indexed
  obtain rfl := Option.some.inj indexed
  obtain ⟨inTables, rfl⟩ := forest.table?_eq_some known
  have catalog : s.catalog = c := by rw [made]; rfl
  have cursors : 1 ≤ s.engine.cursorBatch := by
    rw [made]
    exact Nat.le_max_right _ 1
  have batches : 1 ≤ s.batchSize := by
    rw [made]
    exact Nat.le_max_right _ 1
  subst catalog
  have each (entry : Row) (member : entry ∈ entries) : ∃ answers k, entry.key = some k ∧
      IndexLookup.Expansion s g (ancestors.map RowType.tableId) scope k answers ∧
      IndexLookup.Expands ⟨g.id, tables, scope⟩ s k answers := by
    obtain ⟨k, key, follows, readable⟩ := keyed entry member
    have legible := (RowKey.ofBytes_eq_ok_iff.1 readable).2
    have wanted : ∀ id ∈ ancestors.map RowType.tableId, s.catalog.isAncestor id t'.id = true :=
      List.forall_mem_map.2 above
    obtain ⟨answers, expansion, expands⟩ := @IndexLookup.exists_expansion s g forest inCatalog
      wellFormed cursors batches t' inTables group ⟨g.id, tables, scope⟩ rfl _ wanted ordered k
      follows legible
    exact ⟨answers, k, key, expansion, expands⟩
  obtain ⟨outcomes, related⟩ := exists_forall₂ each
  obtain ⟨state, opened, reports⟩ := IndexLookup.reports delivers
    (related.imp fun _ _ ⟨k, key, _, expands⟩ => ⟨k, key, expands⟩)
  exact ⟨_, below, state, outcomes, rfl, builtInput, opened,
    related.imp fun _ _ ⟨k, key, expansion, _⟩ => ⟨k, key, expansion⟩, reports⟩

/-- The index of the shop, all of it. -/
def shopScan : Pipeline.IndexScan := ⟨0, .index ⟨1⟩ ⟨1⟩ "by_name" ["customer.name"], none, false⟩

/-- Two customers as the index has them. -/
def shopEntries : List Row :=
  [⟨shopScan.rowType, [.text "b"], some (RowKey.empty.push ⟨1⟩ (.int 1))⟩,
    ⟨shopScan.rowType, [.text "c"], some (RowKey.empty.push ⟨1⟩ (.int 2))⟩]

/-- The shop with both customers, one row a batch. -/
def shopBefore : Store :=
  (fresh shop .standard 1).run (shopChanges ++ [.insert ⟨1⟩ [.int 2, .text "c"]])

/-- The shop after the row of the first customer was removed behind the back of the index. -/
def shopAfter : Store :=
  (fresh shop .standard 1).withContents
    (shopBefore.contents.eraseIn (groupSpace "shop") (RowKey.empty.push ⟨1⟩ (.int 1)).bytes)

theorem shopAfter_wellFormed : shopAfter.WellFormed ⟨⟨1⟩, "shop", ⟨1⟩⟩ := by
  obtain ⟨rows, keeps⟩ := keeps_run (Catalog.forest_of_declarations shop_accepted) shop_plain
    .standard 1 (shopChanges ++ [.insert ⟨1⟩ [.int 2, .text "c"]])
  have catalog : shopBefore.catalog = shop := keeps.catalog
  have inCatalog : (⟨⟨1⟩, "shop", ⟨1⟩⟩ : Group) ∈ shopBefore.catalog.groups := by
    rw [catalog]
    simp [shop]
  have before : shopBefore.WellFormed ⟨⟨1⟩, "shop", ⟨1⟩⟩ := keeps.holds.wellFormed inCatalog
  have left : shopAfter.contents = shopBefore.contents.eraseIn (groupSpace "shop")
      (RowKey.empty.push ⟨1⟩ (.int 1)).bytes := rfl
  refine before.of_removed catalog.symm fun bytes body found => ?_
  rw [left] at found
  exact ByteMap.getIn?_of_eraseIn found

/-- A lookup of both customers with what lies below them. -/
theorem indexLookup_reports_shop : Catalog.ofDeclarations shopDeclarations = .ok shop ∧
    (⟨⟨1⟩, "shop", ⟨1⟩⟩ : Group) ∈ shop.groups ∧ shopAfter.WellFormed ⟨⟨1⟩, "shop", ⟨1⟩⟩ ∧
    Plan.build shop (.indexLookup ⟨1⟩ [] .branch (.indexScan shopScan)) =
      .ok (.indexLookup ⟨⟨1⟩, [], .branch⟩ (.indexScan shopScan)) ∧
    (Plan.indexScan shopScan).indexedTable?.bind shop.table? = some shopCustomer ∧
    Delivers (Pipeline.Feed.machine (shopEntries.map .ok)) shopAfter .empty shopEntries ∧
    (∀ entry ∈ shopEntries, ∃ k, entry.key = some k ∧ shop.Follows shopCustomer k ∧
      RowKey.ofBytes k.bytes = .ok k) ∧
    ∃ lookup below state, ∃ outcomes : List (List (Except QueryError Row)),
      Pipeline.indexLookup ⟨⟨1⟩, [], .branch⟩ (.indexScan shopScan) = .indexLookup lookup below ∧
      Plan.build shop (.indexScan shopScan) = .ok below ∧
      (IndexLookup.machine lookup (Pipeline.Feed.machine (shopEntries.map .ok))).launch shopAfter
        .empty (IndexLookup.machine lookup (Pipeline.Feed.machine (shopEntries.map .ok))).fresh =
          (.ok (), state) ∧
      List.Forall₂ (fun entry answers => ∃ k, entry.key = some k ∧
        IndexLookup.Expansion shopAfter ⟨⟨1⟩, "shop", ⟨1⟩⟩ [] .branch k answers)
        shopEntries outcomes ∧
      Reports (IndexLookup.machine lookup (Pipeline.Feed.machine (shopEntries.map .ok))) shopAfter
        state outcomes.flatten := by
  have inCatalog : (⟨⟨1⟩, "shop", ⟨1⟩⟩ : Group) ∈ shop.groups := by simp [shop]
  have built : Plan.build shop (.indexLookup ⟨1⟩ [] .branch (.indexScan shopScan)) =
      .ok (.indexLookup ⟨⟨1⟩, [], .branch⟩ (.indexScan shopScan)) := rfl
  have indexed : (Plan.indexScan shopScan).indexedTable?.bind shop.table? = some shopCustomer := rfl
  have delivers := Pipeline.Feed.delivers shopEntries shopAfter .empty
  have keyed : ∀ entry ∈ shopEntries, ∃ k, entry.key = some k ∧ shop.Follows shopCustomer k ∧
      RowKey.ofBytes k.bytes = .ok k := by
    have read (v : Value) : RowKey.ofBytes (RowKey.empty.push ⟨1⟩ v).bytes =
        .ok (RowKey.empty.push ⟨1⟩ v) :=
      RowKey.ofBytes_bytes (RowKey.isWritten_empty.push ⟨1⟩ v)
    exact List.forall_mem_cons.2 ⟨⟨_, rfl, rfl, read _⟩, List.forall_mem_singleton.2
      ⟨_, rfl, rfl, read _⟩⟩
  exact ⟨shop_accepted, inCatalog, shopAfter_wellFormed, built, indexed, delivers, keyed,
    indexLookup_reports shop_accepted .standard 1 _ rfl inCatalog shopAfter_wellFormed built indexed
      delivers keyed⟩

end Store

end Interleave
