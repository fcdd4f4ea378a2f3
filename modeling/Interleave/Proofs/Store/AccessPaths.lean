import Interleave.Proofs.Store.Contents
import Interleave.Proofs.Store.Ledger

/-!
Three ways to a row. A point lookup, a traversal of a branch and a traversal of a group each find a keyspace,
ends and row types for themselves. Main statement: for every key they agree about the rows that are stored,
whether or not there is a row under the key itself.
-/

namespace Interleave

/-- Whether a row stands under a key or below it. -/
def Row.isInBranch (row : Row) (k : RowKey) : Bool :=
  row.key.any fun key => decide (key = k) || k.isAbove key

namespace Store

variable {s : Store} {g : Group} {key k : RowKey} {row : Row}

theorem Stored.isInBranch_iff (stored : s.Stored g key row) (legible : k.IsLegible) :
    row.isInBranch k = true ↔ k.bytes <+: key.bytes := by
  rw [Row.isInBranch, stored.row_key, Option.any_some, Bool.or_eq_true, decide_eq_true_iff,
    RowKey.isAbove_iff_prefix]
  constructor
  · intro inside
    rcases inside with rfl | below
    · exact List.prefix_rfl
    · exact below.1
  · intro onward
    by_cases same : k.bytes = key.bytes
    · exact .inl (stored.legible.bytes_inj legible same.symm)
    · exact .inr ⟨onward, same⟩

/-- Keys that are stored determine their rows. -/
theorem rows_unique {keys : List RowKey} {rows rows' : List Row}
    (stored : List.Forall₂ (s.Stored g) keys rows) (stored' : List.Forall₂ (s.Stored g) keys rows') :
    rows = rows' := by
  induction stored generalizing rows' with
  | nil =>
    cases stored'
    rfl
  | cons first _ ih =>
    cases stored' with
    | cons first' others' => rw [first.unique first', ih others']

/-- The rows of a branch among the rows of certain keys are the rows of the keys in the branch. -/
theorem forall₂_isInBranch (legible : k.IsLegible) {keys : List RowKey} {rows : List Row}
    (stored : List.Forall₂ (s.Stored g) keys rows) :
    List.Forall₂ (s.Stored g) (keys.filter fun key => k.bytes.isPrefixOf key.bytes)
      (rows.filter fun row => row.isInBranch k) := by
  induction stored with
  | nil => exact .nil
  | @cons key row keys rows first _ ih =>
    have same : k.bytes.isPrefixOf key.bytes = row.isInBranch k := by
      rw [Bool.eq_iff_iff, List.isPrefixOf_iff_prefix, first.isInBranch_iff legible]
    rw [List.filter_cons, List.filter_cons, same]
    split
    · exact .cons first ih
    · exact ih

namespace WellFormed

variable (wellFormed : s.WellFormed g) (cursors : 1 ≤ s.engine.cursorBatch) (batches : 1 ≤ s.batchSize)
  (legible : k.IsLegible)
include wellFormed cursors batches legible

/-- A traversal of a branch stands on the rows of the branch that a traversal of the group stands on, and the
latter comes by each stored row. -/
theorem group_and_branch : ∃ rows,
    (Traversal.between s (groupSpace g.name) .row (some (.unbounded, .unbounded))).Yields s rows ∧
    (Traversal.between s (groupSpace g.name) .row
      (some (.included k.bytes, .pastExtensions k.bytes))).Yields s
        (rows.filter fun row => row.isInBranch k) ∧
    ∀ row, s.Stored g k row ↔ row ∈ rows ∧ row.key = some k := by
  obtain ⟨keys, rows, yields, stored, sorted, members⟩ :=
    wellFormed.between cursors batches .unbounded .unbounded
  obtain ⟨keys', rows', yields', stored', sorted', members'⟩ :=
    wellFormed.branch cursors batches k
  have all (b : RowKey) : b ∈ keys ↔ ∃ row, s.Stored g b row :=
    (members b).trans (and_iff_right ⟨rfl, rfl⟩)
  have branch : keys' = keys.filter fun key => k.bytes.isPrefixOf key.bytes := by
    have irrefl : Std.Irrefl fun a b : RowKey => a.bytes < b.bytes := ⟨fun a => List.lt_irrefl a.bytes⟩
    have asymm : Std.Antisymm fun a b : RowKey => a.bytes < b.bytes :=
      ⟨fun a b ab ba => absurd ba (List.lt_asymm ab)⟩
    refine sorted'.eq_of_mem_iff (sorted.filter _) fun b => ?_
    rw [members', List.mem_filter, List.isPrefixOf_iff_prefix, all, and_comm]
  subst branch
  have kept : rows' = rows.filter fun row => row.isInBranch k :=
    rows_unique stored' (forall₂_isInBranch legible stored)
  refine ⟨rows, yields, kept ▸ yields', fun row => ⟨fun here => ?_, ?_⟩⟩
  · exact ⟨here.mem_of_forall₂ stored ((all k).2 ⟨row, here⟩), here.row_key⟩
  · rintro ⟨member, same⟩
    have each : ∀ row ∈ rows, ∃ b, s.Stored g b row :=
      ((List.forall₂_and_left _ _).1 (stored.flip.imp fun _ b here => ⟨⟨b, here⟩, here⟩)).1
    obtain ⟨b, here⟩ := each row member
    rwa [Option.some.inj (same.symm.trans here.row_key)]

end WellFormed

/-- Over a store that was reached by insertions and deletions, a lookup of a key finds the row that a
traversal of the group comes by under this key, and nothing if there is none. A traversal of the branch
of the key comes by the group's rows at the key or below it, in their order. -/
theorem access_agrees {declarations : List Declaration} {c : Catalog}
    (accepted : Catalog.ofDeclarations declarations = .ok c) (plain : c.Plain)
    (config : Storage.EngineConfig) (batchSize : Nat) (changes : List Change) {s : Store}
    (reached : (fresh c config batchSize).run changes = s) {k : RowKey} (made : k.Made)
    {root last : Table} (first : (k.tableAt? 0).bind c.table? = some root)
    (ends : k.lastTable?.bind c.table? = some last) {g : Group}
    (grouped : c.group? root.group = some g) :
    ∃ (group branch : Traversal) (rows : List Row) (found : Option Row),
      s.traverseGroup g.id = .ok group ∧ group.rows s = (rows, none) ∧
      s.lookup k = .ok found ∧ (∀ row, found = some row ↔ row ∈ rows ∧ row.key = some k) ∧
      s.traverseBranch g.id k = .ok branch ∧
      branch.rows s = (rows.filter fun row => row.isInBranch k, none) := by
  have forest := Catalog.forest_of_declarations accepted
  obtain ⟨holds, batches, rfl⟩ := holds_of_run forest plain config batchSize reached
  have inCatalog : g ∈ s.catalog.groups := Catalog.numbered?_mem grouped
  obtain ⟨root', first, known⟩ := Option.bind_eq_some_iff.1 first
  obtain ⟨last', ends, known'⟩ := Option.bind_eq_some_iff.1 ends
  obtain ⟨inCatalog₁, rfl⟩ := forest.table?_eq_some known
  obtain ⟨inCatalog₂, rfl⟩ := forest.table?_eq_some known'
  have number : root.group = g.id := (forest.group?_eq_some grouped).2.symm
  have opened : s.group g.id = .ok g := by rw [Store.group, ← number, grouped]
  have wellFormed := holds.wellFormed inCatalog
  obtain ⟨rows, group, branch, members⟩ :=
    wellFormed.group_and_branch holds.batches batches made.legible
  obtain ⟨found, looked, same⟩ : ∃ found, s.lookup k = .ok found ∧
      ∀ row, found = some row ↔ s.Stored g k row := by
    rcases wellFormed.lookup forest inCatalog made.legible first inCatalog₁ number ends inCatalog₂ with
      ⟨looked, absent⟩ | ⟨row, looked, stored⟩
    · exact ⟨none, looked, fun row => iff_of_false (Option.some_ne_none row).symm (absent row)⟩
    · refine ⟨some row, looked, fun row' => ⟨fun same => Option.some.inj same ▸ stored, ?_⟩⟩
      exact fun stored' => congrArg some (stored.unique stored')
  have opensGroup : s.traverseGroup g.id =
      .ok (.between s (groupSpace g.name) .row (some (.unbounded, .unbounded))) := by
    rw [traverseGroup, opened]
    rfl
  have opensBranch : s.traverseBranch g.id k = .ok (.between s (groupSpace g.name) .row
      (some (.included k.bytes, .pastExtensions k.bytes))) := by
    rw [traverseBranch, opened]
    rfl
  exact ⟨_, _, rows, found, opensGroup, group.rows_eq, looked,
    fun row => (same row).trans (members row), opensBranch, branch.rows_eq⟩

/-- The shop with an order and an item of a customer who is gone, and another customer. -/
def shopBereft : Store := (fresh shop .standard 1).run
  [.insert ⟨1⟩ [.int 1, .text "a"], .insert ⟨2⟩ [.int 5, .int 1], .insert ⟨3⟩ [.int 7, .int 5],
    .insert ⟨1⟩ [.int 2, .text "b"], .delete ⟨1⟩ (.int 1)]

/-- The key of the customer who is gone. -/
def shopGone : RowKey := RowKey.empty.push ⟨1⟩ (.int 1)

/-- The customer is not found, but the order and the item are, in the branch and in the group. -/
theorem access_agrees_shop : Catalog.ofDeclarations shopDeclarations = .ok shop ∧ shop.Plain ∧
    shopGone.Made ∧ (shopGone.tableAt? 0).bind shop.table? = some shopCustomer ∧
    shopGone.lastTable?.bind shop.table? = some shopCustomer ∧
    shop.group? shopCustomer.group = some ⟨⟨1⟩, "shop", ⟨1⟩⟩ ∧
    ∃ (group branch : Traversal) (rows : List Row),
      shopBereft.traverseGroup ⟨1⟩ = .ok group ∧ group.rows shopBereft = (rows, none) ∧
      shopBereft.lookup shopGone = .ok none ∧ (∀ row ∈ rows, row.key ≠ some shopGone) ∧
      shopBereft.traverseBranch ⟨1⟩ shopGone = .ok branch ∧
      branch.rows shopBereft = (rows.filter fun row => row.isInBranch shopGone, none) ∧
      rows.map (·.values) = [[.int 5, .int 1], [.int 7, .int 5], [.int 2, .text "b"]] ∧
      (rows.filter fun row => row.isInBranch shopGone).map (·.values) =
        [[.int 5, .int 1], [.int 7, .int 5]] := by
  have made : shopGone.Made := .push .empty ⟨1⟩ (.int 1)
  obtain ⟨group, branch, rows, found, opensGroup, whole, looked, same, opensBranch, part⟩ :=
    access_agrees shop_accepted shop_plain .standard 1
      [.insert ⟨1⟩ [.int 1, .text "a"], .insert ⟨2⟩ [.int 5, .int 1], .insert ⟨3⟩ [.int 7, .int 5],
        .insert ⟨1⟩ [.int 2, .text "b"], .delete ⟨1⟩ (.int 1)]
      rfl made rfl rfl rfl
  change shopBereft.traverseGroup ⟨1⟩ = .ok group at opensGroup
  change shopBereft.lookup shopGone = .ok found at looked
  change group.rows shopBereft = (rows, none) at whole
  have missing : (shopBereft.lookup shopGone).map Option.isSome = .ok false := by decide +kernel
  have all : (shopBereft.traverseGroup ⟨1⟩).map (fun t => (t.rows shopBereft).1.map (·.values)) =
      .ok [[.int 5, .int 1], [.int 7, .int 5], [.int 2, .text "b"]] := by decide +kernel
  have inside : (shopBereft.traverseGroup ⟨1⟩).map (fun t =>
      ((t.rows shopBereft).1.filter fun row => row.isInBranch shopGone).map (·.values)) =
      .ok [[.int 5, .int 1], [.int 7, .int 5]] := by decide +kernel
  rw [looked] at missing
  rw [opensGroup] at all inside
  simp only [Except.map, whole, Except.ok.injEq] at missing all inside
  obtain rfl := Option.not_isSome_iff_eq_none.1 (Bool.eq_false_iff.1 missing)
  have absent : ∀ row ∈ rows, row.key ≠ some shopGone := fun row member here =>
    Option.some_ne_none row ((same row).2 ⟨member, here⟩).symm
  exact ⟨shop_accepted, shop_plain, made, rfl, rfl, rfl, group, branch, rows, opensGroup, whole, looked,
    absent, opensBranch, part, all, inside⟩

end Store

end Interleave
