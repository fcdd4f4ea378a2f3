import Interleave.Proofs.Store.Mirror

/-!
Where rows belong. The place of a row depends on the stored rows only through its parent: below the
parent's key when the parent is stored, else below a key that keeps the parent's place, made of nulls
and the foreign key. Main statement: a new row is given its place, and its key fits its table.
-/

namespace Interleave

open Storage (ByteMap)
open Storage.Layout (IsPlain)

namespace Catalog

/-- Whether a key goes along the path of a table. -/
def Follows (c : Catalog) (t : Table) (k : RowKey) : Prop :=
  k.segments.map (·.table) = (c.path t.id).map (·.id)

end Catalog

namespace Store

/-- The key value of the parent that a row asks for. -/
def foreignKey (link : ParentLink) (values : List Value) : Value :=
  ((values[link.column]?).getD .null).keyForm

variable {c : Catalog} (forest : c.Forest)
include forest

section Orphans

variable {t : Table} (known : t ∈ c.tables) (v : Value)
include known

theorem segments_orphanKey : (orphanKey c t.id v).segments =
    (c.path t.id).dropLast.map (fun p => Segment.of p.id .null) ++ [.of t.id v] := by
  rw [orphanKey, forest.filter_path known, RowKey.segments_push, nullKey,
    RowKey.segments_ofSegments, List.map_map]
  rfl

omit forest known in
theorem isWritten_orphanKey : (orphanKey c t.id v).IsWritten :=
  (RowKey.isWritten_ofSegments _).push _ _

theorem follows_orphanKey : c.Follows t (orphanKey c t.id v) := by
  have path := congrArg (List.map Table.id) (forest.path_getLast known)
  rw [Catalog.Follows, segments_orphanKey forest known, path]
  simp [Segment.of, Function.comp_def]

end Orphans

end Store

/-- Whether a key is the place of a row among stored rows. -/
inductive Seat (c : Catalog) (rows : Set StoredRow) (t : Table) (values : List Value) :
    RowKey → Prop where
  | root (top : t.parent = none) :
      Seat c rows t values (RowKey.empty.push t.id (Store.primaryKey t values))
  | below {link : ParentLink} {r : StoredRow} (child : t.parent = some link) (stored : r ∈ rows)
      (parent : r.segment = .of link.table (Store.foreignKey link values)) :
      Seat c rows t values (r.key.push t.id (Store.primaryKey t values))
  | apart {link : ParentLink} (child : t.parent = some link)
      (missing : ∀ r ∈ rows, r.segment ≠ .of link.table (Store.foreignKey link values)) :
      Seat c rows t values
        ((Store.orphanKey c link.table (Store.foreignKey link values)).push t.id
          (Store.primaryKey t values))

theorem Seat.of_root {c : Catalog} {rows : Set StoredRow} {t : Table} {values : List Value}
    {k : RowKey} (seat : Seat c rows t values k) (top : t.parent = none) :
    k = RowKey.empty.push t.id (Store.primaryKey t values) := by
  cases seat with
  | root _ => rfl
  | below child stored parent => simp [top] at child
  | apart child missing => simp [top] at child

theorem Seat.child_cases {c : Catalog} {rows : Set StoredRow} {t : Table} {values : List Value}
    {k : RowKey} (seat : Seat c rows t values k) {link : ParentLink}
    (child : t.parent = some link) :
    (∃ r ∈ rows, r.segment = .of link.table (Store.foreignKey link values) ∧
      k = r.key.push t.id (Store.primaryKey t values)) ∨
    ((∀ r ∈ rows, r.segment ≠ .of link.table (Store.foreignKey link values)) ∧
      k = (Store.orphanKey c link.table (Store.foreignKey link values)).push t.id
        (Store.primaryKey t values)) := by
  cases seat with
  | root top => simp [top] at child
  | below child' stored parent =>
    obtain rfl := Option.some.inj (child'.symm.trans child)
    exact .inl ⟨_, stored, parent, rfl⟩
  | apart child' missing =>
    obtain rfl := Option.some.inj (child'.symm.trans child)
    exact .inr ⟨missing, rfl⟩

theorem Seat.ends {c : Catalog} {rows : Set StoredRow} {t : Table} {values : List Value}
    {k : RowKey} (seat : Seat c rows t values k) :
    ∃ above : RowKey, k = above.push t.id (Store.primaryKey t values) := by
  cases seat with
  | root top => exact ⟨_, rfl⟩
  | below child stored parent => exact ⟨_, rfl⟩
  | apart child missing => exact ⟨_, rfl⟩

namespace Mirrors

variable {c : Catalog} {m : ByteMap} {rows : Set StoredRow}

section Reading

variable (forest : c.Forest) (plain : c.Plain) (mirrors : Mirrors c m rows) {t : Table}
  (known : t ∈ c.tables)
include forest plain mirrors known

theorem findKey?_eq_some_iff {v : Value} {bytes : Bytes} : Store.findKey? m t v = some bytes ↔
    ∃ r ∈ rows, r.segment = .of t.id v ∧ r.key.bytes = bytes := by
  have inCatalog := Keyspace.primary_plain (plain.tables t known)
  rw [Store.findKey?]
  refine (mirrors.getIn?_iff forest plain inCatalog).trans
    (exists_congr fun r => and_congr_right fun member => ?_)
  have table : r.table.name = t.name ↔ r.table.id = t.id :=
    have known' := (mirrors.valid r member).known
    ⟨fun same => congrArg Table.id (forest.tableNames _ known' _ known same),
      fun same => congrArg Table.name (forest.id_inj known' known same)⟩
  rw [StoredRow.primary_mem_places, Prod.mk.injEq, StoredRow.segment, Segment.of, Segment.of,
    Segment.mk.injEq, eq_comm (a := t.name), table, eq_comm (a := Codec.Sortable.encode v),
    eq_comm (a := bytes), and_assoc]

theorem findKey?_eq_none_iff {v : Value} :
    Store.findKey? m t v = none ↔ ∀ r ∈ rows, r.segment ≠ .of t.id v := by
  rw [Option.eq_none_iff_forall_ne_some]
  constructor
  · exact fun none r member same =>
      none _ ((mirrors.findKey?_eq_some_iff forest plain known).2 ⟨r, member, same, rfl⟩)
  · intro missing bytes found
    obtain ⟨r, member, same, _⟩ := (mirrors.findKey?_eq_some_iff forest plain known).1 found
    exact missing r member same

/-- A new row is given its place, whatever its values are. -/
theorem placeOf_spec (values : List Value) :
    ∃ k, Store.placeOf c m t values = .ok k ∧ Seat c rows t values k := by
  rcases forest.parent_cases known with top | ⟨p, column, above, link⟩
  · exact ⟨_, by simp only [Store.placeOf, top], .root top⟩
  · simp only [Store.placeOf, link, forest.table?_id above]
    cases found : Store.findKey? m p ((values[column]?).getD .null).keyForm with
    | none =>
      have missing := (mirrors.findKey?_eq_none_iff forest plain above).1 found
      have seat := @Seat.apart c rows t values _ link missing
      exact ⟨_, rfl, seat⟩
    | some bytes =>
      obtain ⟨r, stored, parent, rfl⟩ := (mirrors.findKey?_eq_some_iff forest plain above).1 found
      simp only [RowKey.ofBytes_bytes (mirrors.valid r stored).written]
      exact ⟨_, rfl, .below link stored parent⟩

omit plain in
/-- The place of a row that its table admits is the key of a valid row. -/
theorem valid_of_seat {values : List Value} {k : RowKey} (seat : Seat c rows t values k)
    {body : Bytes} (counted : values.length = t.columnCount)
    (encodable : Codec.Body.encodeRow values = .ok body) :
    (⟨t, k, values⟩ : StoredRow).Valid c := by
  have step {p : Table} {column : Nat} (link : c.Links p t column) {k' : RowKey}
      (follows : c.Follows p k') : c.Follows t (k'.push t.id (Store.primaryKey t values)) := by
    unfold Catalog.Follows at follows ⊢
    rw [forest.path_child known link, RowKey.segments_push, List.map_append, follows]
    simp [Segment.of]
  have both : k.IsWritten ∧ c.Follows t k := by
    cases seat with
    | root top =>
      refine ⟨RowKey.isWritten_empty.push _ _, ?_⟩
      simp [Catalog.Follows, forest.path_root known top, RowKey.empty, Segment.of]
    | @below link r child stored parent =>
      have valid := mirrors.valid r stored
      have same : r.table.id = link.table := congrArg Segment.table parent
      have linked : c.Links r.table t link.column := ⟨valid.known, by rw [child, same]⟩
      exact ⟨valid.written.push _ _, step linked valid.path⟩
    | @apart link child missing =>
      obtain ⟨p, linked, same⟩ := forest.links known child
      rw [← same]
      exact ⟨(Store.isWritten_orphanKey _).push _ _,
        step linked (Store.follows_orphanKey forest linked.1 _)⟩
  obtain ⟨above, rfl⟩ := seat.ends
  refine ⟨known, counted, ?_, both.1, both.2, ?_⟩
  · simp [StoredRow.body, encodable]
  · simp [StoredRow.segment, StoredRow.own]

end Reading

end Mirrors

end Interleave
