import Mathlib.Data.List.Chain
import Interleave.Proofs.Pipeline.GroupStream
import Interleave.Proofs.Store.Ancestry

/-!
Joins one above another. Each join turns the rows that end at one table of a path into rows that end at
the next; the parents that it lets go late are of types that no later join looks for. Main statement:
after every join the stream holds one row for each line of stored rows down to the child's table.
-/

namespace Interleave

open Pipeline (Flatten.flow Flatten.Nests Flatten.Outflow Flatten.mem_flow_iff Flatten.flow_sorted)

namespace RowType

/-- Whether a type is that of a table's rows, alone or joined with rows above them. -/
def EndsAt (type : RowType) (t : Table) : Prop :=
  type = t.rowType ∨ ∃ parent, type = .flattened parent t.rowType

theorem tableId_of_same_rowType {type : RowType} {t : Table} (same : type.same t.rowType = true) :
    type.tableId = t.id := by
  cases type with
  | table id name columns => exact beq_iff_eq.1 same
  | index id owner name columns => cases same
  | flattened parent child => cases same

theorem EndsAt.tableId_of_same {type type' : RowType} {t : Table} (ends : type'.EndsAt t)
    (same : type.same type' = true) :
    type.tableId = t.id := by
  rcases ends with rfl | ⟨parent, rfl⟩
  · exact tableId_of_same_rowType same
  · cases type with
    | table id name columns => cases same
    | index id owner name columns => cases same
    | flattened parent' child =>
      rw [RowType.same, Bool.and_eq_true] at same
      have inner : child.tableId = t.id := tableId_of_same_rowType same.2
      exact inner

end RowType

/-- A line of stored rows, each the parent of the next, in a list of tables. -/
structure Line (rows : Set StoredRow) (tables : List Table) (line : List StoredRow) : Prop where
  stored : ∀ r ∈ line, r ∈ rows
  inTables : line.map (·.table) = tables
  linked : line.IsChain (IsParent rows)

/-- The values of the rows of a line one after another, under the key of the last. -/
def joinedRow (type : RowType) (line : List StoredRow) : Row :=
  ⟨type, line.flatMap (·.values), line.getLast?.map (·.key)⟩

section Line

variable {rows : Set StoredRow} {type : RowType} {tables : List Table} {t : Table}
  {line : List StoredRow}

theorem line_concat_iff (nonempty : tables ≠ []) : Line rows (tables ++ [t]) line ↔
    ∃ line' p r, line = line' ++ [r] ∧ Line rows tables line' ∧ line'.getLast? = some p ∧
      r.table = t ∧ IsParent rows p r := by
  constructor
  · rintro ⟨stored, inTables, linked⟩
    obtain ⟨line', ends, rfl, inTables', inTable⟩ := List.map_eq_append_iff.1 inTables
    obtain ⟨r, rfl, table⟩ := List.map_eq_singleton_iff.1 inTable
    have nonempty' : line' ≠ [] := by
      rintro rfl
      exact nonempty inTables'.symm
    obtain ⟨p, found⟩ : ∃ p, line'.getLast? = some p :=
      ⟨_, List.getLast?_eq_getLast_of_ne_nil nonempty'⟩
    have chains := List.isChain_append.1 linked
    have lines : Line rows tables line' :=
      ⟨fun r member => stored r (List.mem_append_left _ member), inTables', chains.1⟩
    exact ⟨line', p, r, rfl, lines, found, table, chains.2.2 p found r rfl⟩
  · rintro ⟨line', p, r, rfl, ⟨stored, inTables, linked⟩, found, table, parent⟩
    refine ⟨fun r' member => ?_, by rw [List.map_append, inTables, List.map_singleton, table], ?_⟩
    · rcases List.mem_append.1 member with member | member
      · exact stored r' member
      · rw [List.mem_singleton.1 member]
        exact parent.2.1
    · refine List.isChain_append.2 ⟨linked, List.isChain_singleton r, fun p' found' r' first => ?_⟩
      rw [found] at found'
      rwa [← Option.some.inj found', ← Option.some.inj first]

theorem Line.getLast (lines : Line rows (tables ++ [t]) line) :
    ∃ p ∈ rows, line.getLast? = some p ∧ p.table = t := by
  obtain ⟨front, ends, rfl, _, inTable⟩ := List.map_eq_append_iff.1 lines.inTables
  obtain ⟨p, rfl, table⟩ := List.map_eq_singleton_iff.1 inTable
  exact ⟨p, lines.stored p (by simp), List.getLast?_concat, table⟩

theorem joinedRow_concat (type : RowType) (t : Table) (line : List StoredRow) (r : StoredRow) :
    joinedRow (.flattened type t.rowType) (line ++ [r]) =
      (joinedRow type line).join r.row (.flattened type t.rowType) := by
  simp [joinedRow, Row.join, StoredRow.row]

theorem isAbove_joinedRow {p : StoredRow} (found : line.getLast? = some p) (r : StoredRow) :
    (joinedRow type line).isAbove r.row = p.key.isAbove r.key := by
  simp [joinedRow, Row.isAbove, StoredRow.row, found]

end Line

/-- The stream after some joins, the last of which ended at a table. -/
structure Staged (c : Catalog) (rows : Set StoredRow) (above : List Table) (last : Table)
    (type : RowType) (late : List RowType) (stream : List Row) : Prop where
  known : last ∈ c.tables
  ends : type.EndsAt last
  before : ∀ u ∈ above, u.id.toNat < last.id.toNat
  lates : ∀ τ ∈ late, ∃ u ∈ above, τ.EndsAt u
  sorted : stream.Pairwise fun a b => a.place late < b.place late
  owned : ∀ row ∈ stream, ∃ r ∈ rows, row.key = some r.key ∧ row.rowType.tableId = r.table.id
  types : ∀ row ∈ stream, (∃ t : Table, row.rowType = t.rowType) ∨
    row.rowType.tableId.toNat ≤ last.id.toNat
  joined : ∀ row, (row ∈ stream ∧ row.rowType.same type = true) ↔
    ∃ line, Line rows (above ++ [last]) line ∧ row = joinedRow type line
  plain : ∀ t ∈ c.tables, t.group = last.group → last.id.toNat < t.id.toNat → ∀ row,
    (row ∈ stream ∧ row.rowType.same t.rowType = true) ↔ ∃ r ∈ rows, r.table = t ∧ row = r.row

namespace Staged

variable {c : Catalog} {m : Storage.ByteMap} {rows : Set StoredRow} {above : List Table}
  {last : Table} {type : RowType} {late : List RowType} {stream : List Row}
  (staged : Staged c rows above last type late stream)
include staged

/-- No row of a table from the last one on is let go late. -/
theorem punctual (row : Row) (after : last.id.toNat ≤ row.rowType.tableId.toNat) :
    late.any row.rowType.same = false := by
  rw [List.any_eq_false]
  intro τ member same
  obtain ⟨u, inside, ends⟩ := staged.lates τ member
  have less := staged.before u inside
  rw [ends.tableId_of_same same] at after
  omega

theorem nests (forest : c.Forest) (mirrors : Mirrors c m rows) :
    Flatten.Nests late type stream where
  sorted := staged.sorted
  keyed row member := by
    obtain ⟨r, _, key, _⟩ := staged.owned row member
    rw [key]
    rfl
  punctual p _ isParent := by
    apply staged.punctual
    rw [staged.ends.tableId_of_same isParent]
  flat p member q member' isParent isParent' := by
    obtain ⟨r, stored, key, table⟩ := staged.owned p member
    obtain ⟨r', stored', key', table'⟩ := staged.owned q member'
    rw [staged.ends.tableId_of_same isParent] at table
    rw [staged.ends.tableId_of_same isParent'] at table'
    have valid := mirrors.valid r stored
    have valid' := mirrors.valid r' stored'
    have sameTable := forest.id_inj valid.known valid'.known (table.symm.trans table')
    have keys : p.isAbove q = r.key.isAbove r'.key := by simp only [Row.isAbove, key, key']
    rw [keys, ← Bool.not_eq_true]
    intro inside
    obtain ⟨below, _, split⟩ := (RowKey.isAbove_iff_segments valid.written valid'.written).1 inside
    rw [eq_of_isPrefix mirrors stored stored' sameTable ⟨below, split.symm⟩,
      RowKey.isAbove_irrefl] at inside
    cases inside
  apart p member isParent r member' isLate same := by
    obtain ⟨r₀, stored, key, table⟩ := staged.owned p member
    obtain ⟨r₁, stored', key', table'⟩ := staged.owned r member'
    have segment :=
      (mirrors.valid r₀ stored).segment_eq_of_key (mirrors.valid r₁ stored')
        ((Row.spot_inj key key').1 same)
    have owner := mirrors.distinct r₀ stored r₁ stored' segment
    rw [staged.ends.tableId_of_same isParent, owner, ← table'] at table
    rw [staged.punctual r (Nat.le_of_eq (congrArg TableId.toNat table))] at isLate
    cases isLate

section Step

variable (forest : c.Forest) (mirrors : Mirrors c m rows) {t : Table} {column : Nat}
  (member : t ∈ c.tables) (link : c.Links last t column)
include forest mirrors member link

omit member link in
theorem flow_iff (out : Row) : out ∈ Flatten.flow type t.rowType .noParent stream ↔
    Flatten.Outflow type t.rowType .noParent stream out :=
  Flatten.mem_flow_iff (staged.nests forest mirrors) fun _ none => absurd none List.not_mem_nil

omit mirrors in
/-- No row that ends at the next table looks like one that was joined or let go. -/
theorem not_same (row : Row) (next : row.rowType.tableId = t.id) :
    ∀ τ ∈ type :: late, row.rowType.same τ = false := by
  intro τ known
  have less := forest.parent_lt member link
  rw [← Bool.not_eq_true]
  intro same
  rcases List.mem_cons.1 known with rfl | known
  · have equal := next.symm.trans (staged.ends.tableId_of_same same)
    rw [equal] at less
    exact Nat.lt_irrefl _ less
  · obtain ⟨u, inside, ends⟩ := staged.lates τ known
    have before := staged.before u inside
    rw [← next.symm.trans (ends.tableId_of_same same)] at before
    omega

/-- The rows of the new type are the lines of stored rows down to the next table. -/
theorem joined_step (seated : Seated c rows) (row : Row) :
    (row ∈ Flatten.flow type t.rowType .noParent stream ∧
        row.rowType.same (.flattened type t.rowType) = true) ↔
      ∃ line, Line rows (above ++ [last] ++ [t]) line ∧
        row = joinedRow (.flattened type t.rowType) line := by
  have less := forest.parent_lt member link
  have children := staged.plain t member (forest.parent_group member link).symm less
  constructor
  · rintro ⟨flows, same⟩
    have next : row.rowType.tableId = t.id := RowType.EndsAt.tableId_of_same (.inr ⟨type, rfl⟩) same
    cases (staged.flow_iff forest mirrors row).1 flows with
    | joined parent isParent child isChild inside =>
      obtain ⟨line, lines, rfl⟩ := (staged.joined _).1 ⟨parent, isParent⟩
      obtain ⟨r, stored, table, rfl⟩ := (children _).1 ⟨child, isChild⟩
      obtain ⟨p, stored', found, table'⟩ := lines.getLast
      rw [isAbove_joinedRow found] at inside
      have parent : IsParent rows p r :=
        isParent_of_isAbove forest mirrors seated stored' stored (by rwa [table, table']) inside
      refine ⟨line ++ [r],
        (line_concat_iff (by simp)).2 ⟨line, p, r, rfl, lines, found, table, parent⟩, ?_⟩
      exact (joinedRow_concat type t line r).symm
    | passed inStream _ _ =>
      rcases staged.types row inStream with ⟨u, alone⟩ | bound
      · rw [alone] at same
        cases same
      · rw [next] at bound
        omega
    | alone _ isParent _ =>
      rw [next.symm.trans (staged.ends.tableId_of_same isParent)] at less
      exact absurd less (Nat.lt_irrefl _)
  · rintro ⟨line, lines, rfl⟩
    obtain ⟨line', p, r, rfl, lines', found, table, parent⟩ := (line_concat_iff (by simp)).1 lines
    have parents := (staged.joined (joinedRow type line')).2 ⟨line', lines', rfl⟩
    have child := (children r.row).2 ⟨r, parent.2.1, table, rfl⟩
    have inside : (joinedRow type line').isAbove r.row = true := by
      rw [isAbove_joinedRow found]
      exact parent.isAbove mirrors seated
    rw [joinedRow_concat]
    exact ⟨(staged.flow_iff forest mirrors _).2
      (.joined parents.1 parents.2 child.1 child.2 inside), RowType.same_refl _⟩

/-- The rows of tables further down stay as they are. -/
theorem plain_step {u : Table} (known : u ∈ c.tables) (group : u.group = last.group)
    (later : t.id.toNat < u.id.toNat) (row : Row) :
    (row ∈ Flatten.flow type t.rowType .noParent stream ∧ row.rowType.same u.rowType = true) ↔
      ∃ r ∈ rows, r.table = u ∧ row = r.row := by
  have less := forest.parent_lt member link
  have others := staged.plain u known group (Nat.lt_trans less later) row
  have notParent (same : row.rowType.same u.rowType = true) : row.rowType.same type = false := by
    rw [← Bool.not_eq_true]
    intro isParent
    have equal :=
      (staged.ends.tableId_of_same isParent).symm.trans (RowType.tableId_of_same_rowType same)
    rw [← equal] at later
    omega
  constructor
  · rintro ⟨flows, same⟩
    cases (staged.flow_iff forest mirrors row).1 flows with
    | joined _ _ _ _ _ => cases same
    | passed inStream _ _ => exact others.1 ⟨inStream, same⟩
    | alone _ isParent _ =>
      rw [notParent same] at isParent
      cases isParent
  · intro stored
    obtain ⟨inStream, same⟩ := others.2 stored
    refine ⟨(staged.flow_iff forest mirrors row).2
      (.passed inStream (notParent same) fun isChild => ?_), same⟩
    have equal :=
      (RowType.tableId_of_same_rowType isChild).symm.trans (RowType.tableId_of_same_rowType same)
    rw [equal] at later
    exact absurd later (Nat.lt_irrefl _)

/-- One more join. -/
theorem step (seated : Seated c rows) :
    Staged c rows (above ++ [last]) t (.flattened type t.rowType) (type :: late)
    (Flatten.flow type t.rowType .noParent stream) := by
  have less := forest.parent_lt member link
  have flows := @flow_iff _ _ _ _ _ _ _ _ staged forest mirrors t
  refine ⟨member, .inr ⟨type, rfl⟩, ?_, ?_, ?_, ?_, ?_,
    staged.joined_step forest mirrors member link seated, ?_⟩
  · intro u inside
    rcases List.mem_append.1 inside with inside | here
    · exact Nat.lt_trans (staged.before u inside) less
    · rwa [List.mem_singleton.1 here]
  · intro τ known
    rcases List.mem_cons.1 known with rfl | known
    · exact ⟨last, by simp, staged.ends⟩
    · obtain ⟨u, inside, ends⟩ := staged.lates τ known
      exact ⟨u, List.mem_append_left _ inside, ends⟩
  · apply Flatten.flow_sorted _ (staged.nests forest mirrors) fun _ none =>
      absurd none List.not_mem_nil
    · intro r _ isChild
      apply staged.punctual
      rw [RowType.tableId_of_same_rowType isChild]
      exact Nat.le_of_lt less
    · rw [List.any_eq_false]
      intro τ known
      rw [Bool.not_eq_true]
      exact staged.not_same forest member link ⟨.flattened type t.rowType, [], none⟩ rfl τ known
  · intro row inside
    cases (flows row).1 inside with
    | joined parent isParent child isChild above =>
      obtain ⟨r, stored, key, table⟩ := staged.owned _ child
      exact ⟨r, stored, key, (RowType.tableId_of_same_rowType isChild).symm.trans table⟩
    | passed member _ _ => exact staged.owned row member
    | alone parent _ _ => exact staged.owned row parent
  · intro row inside
    have wider : row ∈ stream → (∃ t : Table, row.rowType = t.rowType) ∨
      row.rowType.tableId.toNat ≤ t.id.toNat :=
      fun member => (staged.types row member).imp_right fun bound =>
        Nat.le_of_lt (Nat.lt_of_le_of_lt bound less)
    cases (flows row).1 inside with
    | joined parent isParent child isChild above => exact .inr (Nat.le_refl t.id.toNat)
    | passed member _ _ => exact wider member
    | alone parent _ _ => exact wider parent
  · intro u known group later row
    exact staged.plain_step forest mirrors member link known
      (group.trans (forest.parent_group member link).symm) later row

end Step

end Staged

section Base

variable {c : Catalog} {m : Storage.ByteMap} {rows : Set StoredRow} (forest : c.Forest)
  (mirrors : Mirrors c m rows) {stored : List StoredRow} {first : Table}
  (members : ∀ r, r ∈ stored ↔ r ∈ rows ∧ r.table.group = first.group)
include forest mirrors members

theorem mem_map_row_iff {t : Table} (known : t ∈ c.tables) (group : t.group = first.group)
    (row : Row) :
    (row ∈ stored.map StoredRow.row ∧ row.rowType.same t.rowType = true) ↔
    ∃ r ∈ rows, r.table = t ∧ row = r.row := by
  constructor
  · rintro ⟨inStream, same⟩
    obtain ⟨r, member, rfl⟩ := List.mem_map.1 inStream
    have valid := mirrors.valid r ((members r).1 member).1
    exact ⟨r, ((members r).1 member).1,
      forest.id_inj valid.known known (RowType.tableId_of_same_rowType same), rfl⟩
  · rintro ⟨r, member, rfl, rfl⟩
    exact ⟨List.mem_map_of_mem ((members r).2 ⟨member, group⟩), RowType.same_refl _⟩

/-- The rows of a group in the order of their keys, before any join. -/
theorem staged_group (known : first ∈ c.tables)
    (sorted : stored.Pairwise fun a b => a.key.bytes < b.key.bytes) :
    Staged c rows [] first first.rowType [] (stored.map StoredRow.row) where
  known := known
  ends := .inl rfl
  before u none := absurd none List.not_mem_nil
  lates τ none := absurd none List.not_mem_nil
  sorted := by
    rw [List.pairwise_map]
    refine sorted.imp fun {a b} less => ?_
    rw [Row.place_of_punctual rfl, Row.place_of_punctual rfl]
    exact (Row.spot_lt_iff rfl rfl).2 less
  owned row inStream := by
    obtain ⟨r, member, rfl⟩ := List.mem_map.1 inStream
    exact ⟨r, ((members r).1 member).1, rfl, rfl⟩
  types row inStream := by
    obtain ⟨r, member, rfl⟩ := List.mem_map.1 inStream
    exact .inl ⟨r.table, rfl⟩
  joined row := by
    rw [mem_map_row_iff forest mirrors members known rfl row]
    constructor
    · rintro ⟨r, member, table, rfl⟩
      have lines : Line rows [first] [r] :=
        ⟨fun r' here => List.mem_singleton.1 here ▸ member, by simp [table],
          List.isChain_singleton r⟩
      refine ⟨[r], lines, ?_⟩
      simp [joinedRow, StoredRow.row, table]
    · rintro ⟨line, lines, rfl⟩
      obtain ⟨r, rfl, table⟩ := List.map_eq_singleton_iff.1 lines.inTables
      refine ⟨r, lines.stored r (List.mem_singleton_self r), table, ?_⟩
      simp [joinedRow, StoredRow.row, table]
  plain t known' group _ row := mem_map_row_iff forest mirrors members known' group row

end Base

/-- The type of rows joined with rows of further tables. -/
def RowType.joinAll (type : RowType) (tables : List Table) : RowType :=
  tables.foldl (fun type t => .flattened type t.rowType) type

/-- Joins with one table after another. -/
def Pipeline.Flatten.flowAll (type : RowType) (stream : List Row) : List Table → List Row
  | [] => stream
  | t :: rest => flowAll (.flattened type t.rowType) (flow type t.rowType .noParent stream) rest

/-- Joins down a path of tables. -/
theorem Staged.steps {c : Catalog} {m : Storage.ByteMap} {rows : Set StoredRow} (forest : c.Forest)
    (mirrors : Mirrors c m rows) (seated : Seated c rows) {rest : List Table}
    (known : ∀ t ∈ rest, t ∈ c.tables) {above : List Table} {last : Table} {type : RowType}
    {late : List RowType} {stream : List Row} (staged : Staged c rows above last type late stream)
    (linked : (last :: rest).IsChain fun p t => ∃ column, c.Links p t column) :
    ∃ above' last' late', above' ++ [last'] = above ++ last :: rest ∧
      Staged c rows above' last' (type.joinAll rest) late'
        (Pipeline.Flatten.flowAll type stream rest) := by
  induction rest generalizing above last type late stream with
  | nil => exact ⟨above, last, late, rfl, staged⟩
  | cons t rest ih =>
    rw [List.isChain_cons_cons] at linked
    obtain ⟨⟨column, link⟩, linked⟩ := linked
    have next := staged.step forest mirrors (known t (List.mem_cons_self ..)) link seated
    obtain ⟨above', last', late', path, staged'⟩ :=
      ih (fun u member => known u (List.mem_cons_of_mem _ member)) next linked
    exact ⟨above', last', late', by rw [path, List.append_assoc]; rfl, staged'⟩

/-- After the last join the rows of its type are the lines of stored rows down all the tables, in the
order of the keys of their last rows. -/
theorem Staged.results {c : Catalog} {rows : Set StoredRow} {above : List Table} {last : Table}
    {type : RowType} {late : List RowType} {stream : List Row}
    (staged : Staged c rows above last type late stream) :
    ((stream.filter fun row => row.rowType.same type).Pairwise fun a b =>
      ∃ k k', a.key = some k ∧ b.key = some k' ∧ k.order k' = .lt) ∧
    ∀ row, row ∈ stream.filter (fun row => row.rowType.same type) ↔
      ∃ line, Line rows (above ++ [last]) line ∧ row = joinedRow type line := by
  constructor
  · have sorted := staged.sorted.filter fun row => row.rowType.same type
    refine List.Pairwise.imp_of_mem ?_ sorted
    intro a b member member' less
    obtain ⟨inStream, same⟩ := List.mem_filter.1 member
    obtain ⟨inStream', same'⟩ := List.mem_filter.1 member'
    obtain ⟨r, _, key, _⟩ := staged.owned a inStream
    obtain ⟨r', _, key', _⟩ := staged.owned b inStream'
    have timely := staged.punctual a (by rw [staged.ends.tableId_of_same same])
    have timely' := staged.punctual b (by rw [staged.ends.tableId_of_same same'])
    rw [Row.place_of_punctual timely, Row.place_of_punctual timely',
      Row.spot_lt_iff key key'] at less
    exact ⟨r.key, r'.key, key, key', Bytes.order_eq_lt_iff.2 less⟩
  · intro row
    rw [List.mem_filter]
    exact staged.joined row

end Interleave
