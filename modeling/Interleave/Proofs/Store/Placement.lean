import Interleave.Proofs.Store.Consistency

/-!
Rows keep their places. Every stored row stands below its stored parent, or below the key that keeps the
missing parent's place; a new row, which draws along those that waited for it, leaves no row elsewhere.
Main statement: rows inserted in any two orders are all accepted and leave the same store.
-/

namespace Interleave

open Storage (ByteMap)

/-- Whether every row of a set stands at its place among the others. -/
def Seated (c : Catalog) (rows : Set StoredRow) : Prop :=
  ∀ r ∈ rows, Seat c rows r.table r.values r.key

/-- Whether rows of a table can be encoded: their number of columns fits its field. -/
def Table.Storable (t : Table) : Prop := t.columnCount < UInt32.size

instance (t : Table) : Decidable t.Storable :=
  inferInstanceAs (Decidable (t.columnCount < UInt32.size))

/-- Whether a key value keeps rows of its table apart from the places kept for missing rows: null does
not, where rows can stand below a child of the table. -/
def Catalog.Tells (c : Catalog) (t : Table) (own : Value) : Prop :=
  own = .null → ∀ w ∈ c.tables, w.Storable → ¬ c.FarAbove t w

theorem StoredRow.Valid.storable {c : Catalog} {r : StoredRow} (valid : r.Valid c) :
    r.table.Storable := by
  rw [Table.Storable, ← valid.counted]
  exact Codec.Body.length_lt_of_encodeRow valid.encodable

namespace Store

variable {c : Catalog} (forest : c.Forest) {t : Table} (known : t ∈ c.tables)
include forest known

/-- The place kept for a row stands above the place kept for a row of another table only if the key
value is null and the table is on the way to the other. -/
theorem orphanKey_prefix_cases {u : Table} (known' : u ∈ c.tables) {v w : Value}
    (above : (orphanKey c t.id v).segments <+: (orphanKey c u.id w).segments) :
    Segment.of t.id v = Segment.of u.id w ∨ v = .null ∧ t ∈ (c.path u.id).dropLast := by
  rw [segments_orphanKey forest known', List.prefix_concat_iff] at above
  rcases above with same | inside
  · rw [segments_orphanKey forest known] at same
    exact .inl (List.singleton_inj.1 (List.append_inj' same rfl).2)
  · have member :
        Segment.of t.id v ∈ (c.path u.id).dropLast.map fun p => Segment.of p.id .null := by
      apply inside.subset
      rw [segments_orphanKey forest known]
      simp
    obtain ⟨p, onPath, same⟩ := List.mem_map.1 member
    have onPath' := (List.dropLast_subset _) onPath
    obtain ⟨inCatalog, _⟩ := forest.mem_path u known' p onPath'
    obtain rfl := forest.id_inj inCatalog known (congrArg Segment.table same)
    exact .inr ⟨Codec.Sortable.encode_eq_null_iff.1 (congrArg Segment.value same).symm, onPath⟩

omit forest known in
theorem orphanKey_congr {id id' : TableId} {v w : Value}
    (same : Segment.of id v = Segment.of id' w) :
    orphanKey c id v = orphanKey c id' w := by
  have table : id = id' := congrArg Segment.table same
  have form : Codec.Sortable.encode v = Codec.Sortable.encode w := congrArg Segment.value same
  simp only [orphanKey, RowKey.push, table, form]

theorem orphanKey_of_root (top : t.parent = none) (v : Value) :
    orphanKey c t.id v = RowKey.empty.push t.id v := by
  rw [orphanKey, forest.filter_path known, forest.path_root known top]
  rfl

theorem nullKey_path : nullKey (c.path t.id) = orphanKey c t.id .null := by
  have same : (nullKey (c.path t.id)).segments = (orphanKey c t.id .null).segments := by
    rw [segments_orphanKey forest known, nullKey, RowKey.segments_ofSegments, List.map_map]
    conv_lhs => rw [forest.path_getLast known, List.map_append]
    rfl
  exact congrArg RowKey.mk same

theorem orphanKey_child {p : Table} {column : Nat} (link : c.Links p t column) (v : Value) :
    orphanKey c t.id v = (orphanKey c p.id .null).push t.id v := by
  rw [orphanKey, forest.filter_path known, forest.path_child known link, List.dropLast_concat,
    nullKey_path forest link.1]

omit known in
theorem segment_of_orphanKey {r : StoredRow} (valid : r.Valid c) {u : Table}
    (known' : u ∈ c.tables) {v : Value} (same : orphanKey c u.id v = r.key) :
    r.segment = .of u.id v := by
  have last := valid.last
  rw [← same, segments_orphanKey forest known'] at last
  simpa using last.symm

end Store

namespace StoredRow

variable {c : Catalog} {source target : RowKey} {r : StoredRow}

theorem shift_of_apart (valid : r.Valid c) (written : source.IsWritten)
    (apart : ¬ source.segments <+: r.key.segments) : r.shift source target = r := by
  refine if_neg fun above => apart ?_
  obtain ⟨below, _, split⟩ := (RowKey.isAbove_iff_segments written valid.written).1 above
  exact ⟨below, split.symm⟩

/-- A row goes where the key above its last segment goes. -/
theorem key_shift_push (written : source.IsWritten) {k : RowKey} (written' : k.IsWritten)
    {table : TableId} {value : Value} (key : r.key = k.push table value)
    (inside : source.segments <+: k.segments) :
    (r.shift source target).key = (RowKey.rebase source target k).push table value := by
  have above : source.isAbove r.key = true := by
    rw [key, RowKey.isAbove_push_iff written written']
    exact inside
  rw [shift, if_pos above, relocate, key, RowKey.rebase_push inside]

theorem shift_push_of_apart (written : source.IsWritten) {k : RowKey} (written' : k.IsWritten)
    {table : TableId} {value : Value} (key : r.key = k.push table value)
    (apart : ¬ source.segments <+: k.segments) :
    r.shift source target = r := by
  refine if_neg fun above => apart ?_
  rwa [key, RowKey.isAbove_push_iff written written'] at above

end StoredRow

theorem shift_mem_withRow {c : Catalog} {rows : Set StoredRow} {n r : StoredRow}
    (stored : r ∈ rows) :
    r.shift (Store.orphanKey c n.table.id n.own) n.key ∈ withRow c rows n :=
  ⟨r, Set.mem_insert_of_mem _ stored, rfl⟩

section Step

variable {c : Catalog} {m : ByteMap} {rows : Set StoredRow} (forest : c.Forest)
  (mirrors : Mirrors c m rows) {n : StoredRow} (valid : n.Valid c)
  (fresh : ∀ r ∈ rows, r.segment ≠ n.segment)
include forest valid

/-- A new row is not among the rows that wait for it. -/
theorem not_above_new : ¬ (Store.orphanKey c n.table.id n.own).isAbove n.key = true := by
  intro above
  have written : (Store.orphanKey c n.table.id n.own).IsWritten := Store.isWritten_orphanKey n.own
  obtain ⟨below, nonempty, split⟩ := (RowKey.isAbove_iff_segments written valid.written).1 above
  have depth := congrArg List.length valid.path
  have depth' := congrArg List.length (Store.follows_orphanKey forest valid.known n.own)
  have positive := List.length_pos_iff.2 nonempty
  rw [split, List.map_append, List.length_append, List.length_map, List.length_map,
    List.length_map] at depth
  rw [List.length_map, List.length_map] at depth'
  omega

omit valid in
/-- A row whose key begins with the place kept for a new row is below that place. -/
theorem isAbove_of_inside {r : StoredRow} (valid' : r.Valid c) (known : n.table ∈ c.tables)
    (different : r.segment ≠ n.segment)
    (inside : (Store.orphanKey c n.table.id n.own).segments <+: r.key.segments) :
    (Store.orphanKey c n.table.id n.own).isAbove r.key = true := by
  rw [RowKey.isAbove_iff_segments (Store.isWritten_orphanKey n.own) valid'.written]
  obtain ⟨below, split⟩ := inside
  refine ⟨below, ?_, split.symm⟩
  rintro rfl
  rw [List.append_nil] at split
  have same : Store.orphanKey c n.table.id n.own = r.key := congrArg RowKey.mk split
  exact different (Store.segment_of_orphanKey forest valid' known same)

theorem shift_new : n.shift (Store.orphanKey c n.table.id n.own) n.key = n :=
  if_neg (not_above_new forest valid)

/-- The new row itself stays where it comes in. -/
theorem withRow_eq : withRow c rows n =
    insert n (StoredRow.shift (Store.orphanKey c n.table.id n.own) n.key '' rows) := by
  rw [withRow, Set.image_insert_eq, shift_new forest valid]

theorem mem_withRow_new : n ∈ withRow c rows n := by
  rw [withRow_eq forest valid]
  exact Set.mem_insert _ _

/-- A row that comes in deeper in the hierarchy than all others moves none of them. -/
theorem withRow_of_deeper (others : ∀ r ∈ rows, r.Valid c)
    (deeper : ∀ r ∈ rows, (c.path r.table.id).length < (c.path n.table.id).length) :
    withRow c rows n = insert n rows := by
  have apart : ∀ r ∈ rows, r.shift (Store.orphanKey c n.table.id n.own) n.key = r := by
    intro r member
    refine StoredRow.shift_of_apart (others r member) (Store.isWritten_orphanKey _)
      fun inside => ?_
    have short := congrArg List.length (others r member).path
    have long := congrArg List.length (Store.follows_orphanKey forest valid.known n.own)
    rw [List.length_map, List.length_map] at short long
    have length := inside.length_le
    rw [short, long] at length
    exact absurd (deeper r member) (Nat.not_lt.2 length)
  rw [withRow_eq forest valid, Set.image_congr apart, Set.image_id']

include mirrors fresh

/-- The new row is at its place among the rows that it leaves. -/
theorem Seat.withRow_new (seat : Seat c rows n.table n.values n.key) :
    Seat c (withRow c rows n) n.table n.values n.key := by
  have written : (Store.orphanKey c n.table.id n.own).IsWritten := Store.isWritten_orphanKey n.own
  have apart := not_above_new forest valid
  unfold withRow
  generalize Store.orphanKey c n.table.id n.own = waiting at written apart ⊢
  generalize whole : n.key = key at seat
  cases seat with
  | root top => exact .root top
  | @below link p child stored parent =>
    rw [whole, RowKey.isAbove_push_iff written (mirrors.valid p stored).written] at apart
    have stays : p.shift waiting n.key = p :=
      StoredRow.shift_of_apart (mirrors.valid p stored) written apart
    exact .below child ⟨p, Set.mem_insert_of_mem _ stored, whole ▸ stays⟩ parent
  | @apart link child missing =>
    apply Seat.apart child
    rintro _ ⟨r, member, rfl⟩ same
    rw [StoredRow.segment_shift] at same
    rcases member with rfl | member
    · obtain ⟨p, linked, parent⟩ := forest.links valid.known child
      have less := forest.parent_lt valid.known linked
      have table : r.table.id = link.table := congrArg Segment.table same
      rw [parent, table] at less
      exact absurd less (Nat.lt_irrefl _)
    · exact missing r member same

/-- A row below a stored parent goes where the parent goes. -/
theorem Seat.withRow_below {r p : StoredRow} {link : ParentLink}
    (child : r.table.parent = some link) (stored : p ∈ rows)
    (parent : p.segment = .of link.table (Store.foreignKey link r.values))
    (place : r.key = p.key.push r.table.id (Store.primaryKey r.table r.values)) :
    Seat c (withRow c rows n) r.table r.values
      (r.shift (Store.orphanKey c n.table.id n.own) n.key).key := by
  have written : (Store.orphanKey c n.table.id n.own).IsWritten := Store.isWritten_orphanKey n.own
  have valid' := mirrors.valid p stored
  have stored' : p.shift (Store.orphanKey c n.table.id n.own) n.key ∈ withRow c rows n :=
    shift_mem_withRow stored
  by_cases inside : (Store.orphanKey c n.table.id n.own).segments <+: p.key.segments
  · have moved : (p.shift (Store.orphanKey c n.table.id n.own) n.key).key =
        RowKey.rebase (Store.orphanKey c n.table.id n.own) n.key p.key := by
      rw [StoredRow.shift,
        if_pos (isAbove_of_inside forest valid' valid.known (fresh p stored) inside)]
      rfl
    rw [StoredRow.key_shift_push written valid'.written place inside, ← moved]
    exact .below child stored' (StoredRow.segment_shift.trans parent)
  · have still : p.shift (Store.orphanKey c n.table.id n.own) n.key = p :=
      StoredRow.shift_of_apart valid' written inside
    rw [StoredRow.shift_push_of_apart written valid'.written place inside, place]
    exact .below child (still ▸ stored') parent

/-- A row whose parent is missing goes below the new row if that is the parent, and else stays. -/
theorem Seat.withRow_apart (seat : Seat c rows n.table n.values n.key) {r : StoredRow}
    (tells : n.table.parent = none ∨ (n.own = .null → ¬ c.FarAbove n.table r.table))
    (member : r ∈ rows) {link : ParentLink} (child : r.table.parent = some link)
    (missing : ∀ p ∈ rows, p.segment ≠ .of link.table (Store.foreignKey link r.values))
    (place : r.key = (Store.orphanKey c link.table (Store.foreignKey link r.values)).push r.table.id
      (Store.primaryKey r.table r.values)) :
    Seat c (withRow c rows n) r.table r.values
      (r.shift (Store.orphanKey c n.table.id n.own) n.key).key := by
  have written : (Store.orphanKey c n.table.id n.own).IsWritten := Store.isWritten_orphanKey n.own
  obtain ⟨p, linked, parent⟩ := forest.links (mirrors.valid r member).known child
  rw [← parent] at place missing
  by_cases same : n.segment = .of p.id (Store.foreignKey link r.values)
  · have kept : Store.orphanKey c n.table.id n.own =
        Store.orphanKey c p.id (Store.foreignKey link r.values) :=
      Store.orphanKey_congr same
    rw [← kept] at place
    rw [StoredRow.key_shift_push written written place List.prefix_rfl, RowKey.rebase_self]
    exact .below child (mem_withRow_new forest valid) (parent ▸ same)
  · have still : r.shift (Store.orphanKey c n.table.id n.own) n.key = r := by
      by_cases inside : (Store.orphanKey c n.table.id n.own).segments <+:
          (Store.orphanKey c p.id (Store.foreignKey link r.values)).segments
      · rcases Store.orphanKey_prefix_cases forest valid.known linked.1 inside with
          equal | ⟨null, onPath⟩
        · exact absurd equal same
        · have top := tells.resolve_right fun apart => apart null ⟨p, _, linked, onPath⟩
          have home : n.key = Store.orphanKey c n.table.id n.own :=
            (seat.of_root top).trans (Store.orphanKey_of_root forest valid.known top n.own).symm
          rw [home]
          exact StoredRow.shift_self (mirrors.valid r member) written
      · exact StoredRow.shift_push_of_apart written (Store.isWritten_orphanKey _) place inside
    rw [still, place, parent]
    apply Seat.apart child
    rintro _ ⟨r', member', rfl⟩ equal
    rw [StoredRow.segment_shift] at equal
    rcases member' with rfl | member'
    · exact same (parent ▸ equal)
    · exact missing r' member' (parent ▸ equal)

/-- A row that was at its place before is at its place after. -/
theorem Seat.withRow_old (seat : Seat c rows n.table n.values n.key) {r : StoredRow}
    (tells : n.table.parent = none ∨ (n.own = .null → ¬ c.FarAbove n.table r.table))
    (member : r ∈ rows) (seat' : Seat c rows r.table r.values r.key) :
    Seat c (withRow c rows n) r.table r.values
      (r.shift (Store.orphanKey c n.table.id n.own) n.key).key := by
  generalize place : r.key = key at seat'
  cases seat' with
  | root top =>
    have apart : ¬ (Store.orphanKey c n.table.id n.own).segments <+: RowKey.empty.segments := by
      intro inside
      rw [Store.segments_orphanKey forest valid.known n.own] at inside
      simp [RowKey.empty] at inside
    rw [StoredRow.shift_push_of_apart (Store.isWritten_orphanKey n.own) RowKey.isWritten_empty
      place apart, place]
    exact .root top
  | below child stored parent =>
    exact Seat.withRow_below forest mirrors valid fresh child stored parent place
  | apart child missing =>
    exact Seat.withRow_apart forest mirrors valid fresh seat tells member child missing place

/-- The new row leaves every row at its place: those that waited for it are below it, and no other moves. -/
theorem Seated.withRow (seated : Seated c rows) (seat : Seat c rows n.table n.values n.key)
    (tells : n.table.parent = none ∨ c.Tells n.table n.own) : Seated c (withRow c rows n) := by
  rintro _ ⟨r, member, rfl⟩
  rw [StoredRow.table_shift, StoredRow.values_shift]
  rcases member with rfl | member
  · rw [shift_new forest valid]
    exact seat.withRow_new forest mirrors valid fresh
  · have valid' := mirrors.valid r member
    have apart := tells.imp_right fun tells null =>
      tells null r.table valid'.known valid'.storable
    exact seat.withRow_old forest mirrors valid fresh apart member (seated r member)

end Step

end Interleave
