import Interleave.Proofs.Catalog.Lineage
import Interleave.RowType

/-!
The indexes of a catalog. Every index is found under its number and indexes columns that its table has,
so its entries have a value for each of them.
-/

namespace Interleave

namespace Draft

theorem columnPositions_lt {t : Table} {names : List String} {positions : List Nat}
    (ok : columnPositions t names = .ok positions) :
    ∀ position ∈ positions, position < t.columnCount := by
  induction names generalizing positions with
  | nil =>
    obtain rfl := Except.ok.inj ok
    exact fun position member => absurd member List.not_mem_nil
  | cons name names ih =>
    rw [columnPositions] at ok
    split at ok
    · cases ok
    · next first found =>
      obtain ⟨others, read, rfl⟩ := map_eq_ok ok
      exact List.forall_mem_cons.2 ⟨column_lt found, ih read⟩

/-- What holds of the indexes read so far, beside their names. -/
structure IndexesFit (d : Draft) (done : IndexDraft) : Prop where
  numbered : Numbered (fun i => i.id.num) done.indexes
  columns : ∀ i ∈ done.indexes, ∃ t ∈ d.tables, t.id = i.table ∧
    ∀ position ∈ i.columns, position < t.columnCount

theorem IndexesFit.addIndex {d : Draft} {done done' : IndexDraft} (fit : d.IndexesFit done)
    {declared : String × String × List String} (ok : d.addIndex done declared = .ok done') :
    d.IndexesFit done' := by
  obtain ⟨name, table, columns⟩ := declared
  simp only [Draft.addIndex] at ok
  split at ok
  · cases ok
  · split at ok
    · cases ok
    · split at ok
      · cases ok
      · next t found =>
        split at ok
        · cases ok
        · obtain ⟨positions, read, rfl⟩ := map_eq_ok ok
          obtain ⟨id, _, numbered⟩ := Option.bind_eq_some_iff.1 found
          refine ⟨fit.numbered.push rfl, fun i member => ?_⟩
          rcases Array.mem_push.1 member with member | rfl
          · exact fit.columns i member
          · exact ⟨t, Catalog.numbered?_mem numbered, rfl, columnPositions_lt read⟩

end Draft

namespace Catalog

/-- Whether every index is found under its number and indexes columns of its table. -/
structure IndexesFit (c : Catalog) : Prop where
  numbered : Numbered (fun i => i.id.num) c.indexes
  columns : ∀ i ∈ c.indexes, ∃ t, c.table? i.table = some t ∧
    ∀ position ∈ i.columns, position < t.columnCount

theorem indexesFit_of_declarations {declarations : List Declaration} {c : Catalog}
    (ok : Catalog.ofDeclarations declarations = .ok c) : c.IndexesFit := by
  have forest := forest_of_declarations ok
  unfold Catalog.ofDeclarations at ok
  obtain ⟨named, _, ok⟩ := bind_eq_ok ok
  obtain ⟨draft, _, ok⟩ := bind_eq_ok ok
  obtain ⟨groups, _, ok⟩ := bind_eq_ok ok
  obtain ⟨done, read, ok⟩ := bind_eq_ok ok
  obtain rfl := Except.ok.inj ok
  have empty : draft.IndexesFit ⟨#[], ∅⟩ := ⟨fun i a found => by simp at found, by simp⟩
  have fit : draft.IndexesFit done :=
    foldlM_preserves (fun done i done' _ fit ok => Draft.IndexesFit.addIndex fit ok) empty read
  refine ⟨fit.numbered, fun i member => ?_⟩
  obtain ⟨t, inside, id, columns⟩ := fit.columns i member
  exact ⟨t, id ▸ forest.table?_id inside, columns⟩

namespace IndexesFit

variable {c : Catalog} (fit : c.IndexesFit) {id : IndexId} {i : Index}
include fit

theorem index?_eq_some (found : c.index? id = some i) : i ∈ c.indexes ∧ i.id = id :=
  ⟨numbered?_mem found, congrArg IndexId.mk (fit.numbered.number_eq found)⟩

/-- The entries of an index have a value for each of its columns. -/
theorem indexType?_eq_some (found : c.index? id = some i) : ∃ t, c.table? i.table = some t ∧
    c.indexType? id = some (i.rowType t) ∧ (i.rowType t).columnCount = i.columns.length := by
  obtain ⟨t, on, columns⟩ := fit.columns i (fit.index?_eq_some found).1
  refine ⟨t, on, ?_, ?_⟩
  · rw [indexType?, found, Option.bind_eq_bind, Option.bind_some, on]
    rfl
  · have whole : (i.columns.filterMap fun position => t.columns[position]?).length =
        i.columns.length := by
      rw [List.length_filterMap_eq_countP, List.countP_eq_length]
      exact fun position member => by simpa [Table.columnCount] using columns position member
    simpa [RowType.columnCount, RowType.columns, Index.rowType] using whole

end IndexesFit

end Catalog

end Interleave
