import Interleave.Proofs.Store.Ancestry
import Interleave.Proofs.Store.Contents

/-!
Children and their parents. A removed row leaves the rows below it behind, and only rows at the place kept
for a missing row are drawn along when it comes again. Rows whose place depends on their key value alone
come again where they were; other rows may come elsewhere, and what they left behind stays. Main
statement: for which tables rows may be removed from above others, so that in every run each row stands
below its stored parent.
-/

namespace Interleave

open Storage (EngineConfig)

/-- Whether rows of a table with the same key value have the same place at all times: the table is a
root, or its rows ask for a parent with their own key value, and the parents are roots or never stored. -/
def Catalog.Anchored (c : Catalog) (t : Table) : Prop :=
  t.parent = none ∨ ∃ p, c.Links p t t.primaryKey ∧ (p.parent = none ∨ ¬ p.Storable)

namespace Store

/-- That place. -/
def anchor (c : Catalog) (t : Table) (own : Value) : RowKey :=
  match t.parent with
  | none => RowKey.empty.push t.id own
  | some link => (orphanKey c link.table own).push t.id own

/-- Whether every row whose foreign key names a stored row stands right below that row. -/
def Attached (s : Store) : Prop :=
  ∀ p r, IsParent s.rows p r → r.key = p.key.push r.table.id r.own

/-- Whether a call gives a new row a key value that is not null, and takes a row away from above others
only if its table is one of those allowed. -/
def Spares (allowed : Table → Prop) (s : Store) : Change → Prop
  | .insert id values => ∀ t, s.catalog.table? id = some t → primaryKey t values ≠ .null
  | .delete id primary => ∀ p r, IsParent s.rows p r → p.segment = .of id primary.keyForm →
    allowed p.table

/-- Whether all calls of a run do so. -/
def Careful (allowed : Table → Prop) (s : Store) : List Change → Prop
  | [] => True
  | change :: rest => s.Spares allowed change ∧ (s.after change).Careful allowed rest

end Store

/-- Whether a key is the place of a row, or the place below a removed row that can only come again where
it was. -/
inductive Berth (c : Catalog) (rows : Set StoredRow) (t : Table) (values : List Value) :
    RowKey → Prop where
  | seat {k : RowKey} (seat : Seat c rows t values k) : Berth c rows t values k
  | left {p : Table} {column : Nat} (link : c.Links p t column) (anchored : c.Anchored p)
      (storable : p.Storable)
      (missing : ∀ r ∈ rows, r.segment ≠ .of p.id (Store.foreignKey ⟨p.id, column⟩ values)) :
      Berth c rows t values
        ((Store.anchor c p (Store.foreignKey ⟨p.id, column⟩ values)).push t.id
          (Store.primaryKey t values))

/-- Whether every row of a set is at such a key. -/
def Berthed (c : Catalog) (rows : Set StoredRow) : Prop :=
  ∀ r ∈ rows, Berth c rows r.table r.values r.key

namespace Store

variable {c : Catalog}

theorem anchor_root {t : Table} (top : t.parent = none) (v : Value) :
    anchor c t v = RowKey.empty.push t.id v := by
  rw [anchor, top]

theorem anchor_child {p t : Table} {column : Nat} (link : c.Links p t column) (v : Value) :
    anchor c t v = (orphanKey c p.id v).push t.id v := by
  rw [anchor, link.2]

theorem isWritten_anchor (forest : c.Forest) {t : Table} (known : t ∈ c.tables) (v : Value) :
    (anchor c t v).IsWritten := by
  rcases forest.parent_cases known with top | ⟨p, column, link⟩
  · rw [anchor_root top]
    exact RowKey.isWritten_empty.push t.id v
  · rw [anchor_child link]
    exact (isWritten_orphanKey v).push t.id v

theorem push_congr {k : RowKey} {id id' : TableId} {v w : Value}
    (same : Segment.of id v = Segment.of id' w) : k.push id v = k.push id' w :=
  congrArg (fun s => RowKey.mk (k.segments ++ [s])) same

theorem anchor_congr (forest : c.Forest) {t : Table} (known : t ∈ c.tables) {v w : Value}
    (same : Segment.of t.id v = Segment.of t.id w) : anchor c t v = anchor c t w := by
  have form : Codec.Sortable.encode v = Codec.Sortable.encode w := congrArg Segment.value same
  rcases forest.parent_cases known with top | ⟨p, column, link⟩
  · rw [anchor_root top, anchor_root top]
    exact push_congr same
  · have above : Segment.of p.id v = Segment.of p.id w := congrArg (Segment.mk p.id) form
    rw [anchor_child link, anchor_child link, orphanKey_congr above]
    exact push_congr same

end Store

section Step

variable {c : Catalog} {m : Storage.ByteMap} {rows : Set StoredRow} (forest : c.Forest)
  (mirrors : Mirrors c m rows)
include forest mirrors

/-- A row of a table with one place for each key value is there. -/
theorem Berth.eq_anchor (berthed : Berthed c rows) {t : Table} (anchored : c.Anchored t)
    {values : List Value} {k : RowKey} (berth : Berth c rows t values k) :
    k = Store.anchor c t (Store.primaryKey t values) := by
  -- A stored parent is a root, which stands at the place kept for it.
  have below {u : Table} (link : c.Links u t t.primaryKey) (top : u.parent = none) {r : StoredRow}
      (stored : r ∈ rows) (parent : r.segment = .of u.id (Store.primaryKey t values)) :
      r.key = Store.orphanKey c u.id (Store.primaryKey t values) := by
    have same := forest.id_inj (mirrors.valid r stored).known link.1 (congrArg Segment.table parent)
    have place : r.key = RowKey.empty.push r.table.id r.own := by
      have berth := berthed r stored
      generalize r.key = key at berth ⊢
      cases berth with
      | seat seat => exact seat.of_root (same ▸ top)
      | left link' _ _ _ =>
        rw [← same, link'.2] at top
        cases top
    rw [place, Store.orphanKey_of_root forest link.1 top]
    exact Store.push_congr parent
  rcases anchored with top | ⟨p, link, placed⟩
  · cases berth with
    | seat seat => rw [seat.of_root top, Store.anchor_root top]
    | left link _ _ _ =>
      rw [link.2] at top
      cases top
  · rw [Store.anchor_child link]
    cases berth with
    | seat seat =>
      rcases seat.child_cases link.2 with ⟨r, stored, parent, place⟩ | ⟨_, place⟩
      · rcases placed with top | unstored
        · rw [place, below link top stored parent]
        · have valid := mirrors.valid r stored
          have same := forest.id_inj valid.known link.1 (congrArg Segment.table parent)
          exact absurd (same ▸ valid.storable) unstored
      · exact place
    | @left q column link' _ storable missing =>
      have asked : ParentLink.mk q.id column = ⟨p.id, t.primaryKey⟩ :=
        Option.some.inj (link'.2.symm.trans link.2)
      obtain rfl := forest.id_inj link'.1 link.1 (congrArg ParentLink.table asked)
      obtain rfl : column = t.primaryKey := congrArg ParentLink.column asked
      rcases placed with top | unstored
      · rw [Store.anchor_root top, ← Store.orphanKey_of_root forest link.1 top]
        rfl
      · exact absurd storable unstored

section Insert

variable {n : StoredRow} (valid : n.Valid c) (fresh : ∀ r ∈ rows, r.segment ≠ n.segment)
  (berthed : Berthed c rows) (seat : Seat c rows n.table n.values n.key) (named : n.own ≠ .null)
include valid fresh berthed seat named

omit fresh berthed in
/-- A new row draws no row along from below the place of a removed one. -/
theorem shift_anchor {p : Table} (known : p ∈ c.tables) (anchored : c.Anchored p) {v : Value}
    {r : StoredRow} (member : r ∈ rows) {id : TableId} {own : Value}
    (place : r.key = (Store.anchor c p v).push id own) :
    r.shift (Store.orphanKey c n.table.id n.own) n.key = r := by
  have written : (Store.orphanKey c n.table.id n.own).IsWritten := Store.isWritten_orphanKey n.own
  have home (top : n.table.parent = none) :
      r.shift (Store.orphanKey c n.table.id n.own) n.key = r := by
    have same : n.key = Store.orphanKey c n.table.id n.own :=
      (seat.of_root top).trans (Store.orphanKey_of_root forest valid.known top n.own).symm
    rw [same]
    exact StoredRow.shift_self (mirrors.valid r member) written
  by_cases inside : (Store.orphanKey c n.table.id n.own).segments <+: (Store.anchor c p v).segments
  · rcases anchored with top | ⟨q, link, placed⟩
    · rw [Store.anchor_root top, ← Store.orphanKey_of_root forest known top] at inside
      rcases Store.orphanKey_prefix_cases forest valid.known known inside with same | ⟨null, _⟩
      · have table := forest.id_inj valid.known known (congrArg Segment.table same)
        exact home (table ▸ top)
      · exact absurd null named
    · rw [Store.anchor_child link, RowKey.segments_push, List.prefix_concat_iff] at inside
      rcases inside with same | inside
      · have last : Segment.of n.table.id n.own = Segment.of p.id v := by
          have ends := congrArg List.getLast? same
          rw [Store.segments_orphanKey forest valid.known, List.getLast?_concat,
            List.getLast?_concat] at ends
          exact Option.some.inj ends
        have above : (Store.orphanKey c q.id v).segments <+:
            (Store.orphanKey c n.table.id n.own).segments := by
          rw [same]
          exact List.prefix_append _ _
        rcases Store.orphanKey_prefix_cases forest link.1 valid.known above with same' | ⟨null, _⟩
        · have less := forest.parent_lt known link
          rw [show q.id = p.id from congrArg Segment.table (same'.trans last)] at less
          exact absurd less (Nat.lt_irrefl _)
        · rw [null] at last
          exact absurd (Codec.Sortable.encode_eq_null_iff.1 (congrArg Segment.value last)) named
      · rcases Store.orphanKey_prefix_cases forest valid.known link.1 inside with same | ⟨null, _⟩
        · have table := forest.id_inj valid.known link.1 (congrArg Segment.table same)
          rcases placed with top | unstored
          · exact home (table ▸ top)
          · exact absurd (table ▸ valid.storable) unstored
        · exact absurd null named
  · exact StoredRow.shift_push_of_apart written (Store.isWritten_anchor forest known v) place inside

/-- A new row leaves every row at its berth. -/
theorem Berthed.withRow : Berthed c (withRow c rows n) := by
  rintro _ ⟨r, member, rfl⟩
  rw [StoredRow.table_shift, StoredRow.values_shift]
  rcases member with rfl | member
  · rw [shift_new forest valid]
    exact .seat (seat.withRow_new forest mirrors valid fresh)
  · have berth := berthed r member
    generalize place : r.key = key at berth
    cases berth with
    | seat seat' =>
      subst place
      have tells : n.table.parent = none ∨ (n.own = .null → ¬ c.FarAbove n.table r.table) :=
        .inr fun null => absurd null named
      exact .seat (seat.withRow_old forest mirrors valid fresh tells member seat')
    | @left p column link anchored storable missing =>
      have stays := shift_anchor forest mirrors valid seat named link.1 anchored member place
      rw [stays, place]
      by_cases same : n.segment = .of p.id (Store.foreignKey ⟨p.id, column⟩ r.values)
      · have table := forest.id_inj valid.known link.1 (congrArg Segment.table same)
        have home : n.key = Store.anchor c p (Store.foreignKey ⟨p.id, column⟩ r.values) := by
          have anchored' : c.Anchored n.table := table ▸ anchored
          rw [Berth.eq_anchor forest mirrors berthed anchored' (.seat seat), table]
          exact Store.anchor_congr forest link.1 (table ▸ same)
        have below := @Seat.below c (Interleave.withRow c rows n) r.table r.values _ n link.2
          (mem_withRow_new forest valid) same
        rw [home] at below
        exact .seat below
      · refine .left link anchored storable ?_
        rintro _ ⟨r', member', rfl⟩ equal
        rw [StoredRow.segment_shift] at equal
        rcases member' with rfl | member'
        · exact same equal
        · exact missing r' member' equal

end Insert

/-- A removed row leaves every row at its berth if those below it can only come below it again. -/
theorem Berthed.without (berthed : Berthed c rows) {d : StoredRow} (member : d ∈ rows)
    (anchored : ∀ r, IsParent rows d r → c.Anchored d.table) : Berthed c (rows \ {d}) := by
  rintro r ⟨member', _⟩
  have berth := berthed r member'
  have fewer {segment : Segment} (missing : ∀ q ∈ rows, q.segment ≠ segment) :
      ∀ q ∈ rows \ {d}, q.segment ≠ segment := fun q inside => missing q inside.1
  generalize place : r.key = key at berth
  cases berth with
  | seat seat =>
    cases seat with
    | root top => exact .seat (.root top)
    | @below link q child stored parent =>
      by_cases same : q = d
      · subst same
        have valid := mirrors.valid q stored
        have fixed := anchored r ⟨stored, member', link, child, parent⟩
        have table : q.table.id = link.table := congrArg Segment.table parent
        have linked : c.Links q.table r.table link.column := ⟨valid.known, by rw [child, table]⟩
        have asked : q.segment =
            .of q.table.id (Store.foreignKey ⟨q.table.id, link.column⟩ r.values) := by
          rw [table]
          exact parent
        have home : q.key =
            Store.anchor c q.table (Store.foreignKey ⟨q.table.id, link.column⟩ r.values) := by
          rw [Berth.eq_anchor forest mirrors berthed fixed (berthed q stored)]
          exact Store.anchor_congr forest valid.known asked
        rw [home]
        refine .left linked fixed valid.storable fun q' inside same => inside.2 ?_
        exact mirrors.distinct q' inside.1 q stored (same.trans asked.symm)
      · exact .seat (.below child ⟨stored, same⟩ parent)
    | apart child missing => exact .seat (.apart child (fewer missing))
  | left link anchored' storable missing => exact .left link anchored' storable (fewer missing)

end Step

namespace Store

/-- Whether rows of a table can come and go without those below them losing the row above them: they come
again where they were, or no rows stand below them. -/
def Yields (c : Catalog) (t : Table) : Prop :=
  c.Anchored t ∨ ∀ w ∈ c.tables, ∀ column, c.Links t w column → ¬ w.Storable

variable {s : Store} {rows : Set StoredRow} {allowed : Table → Prop}

/-- Rows at their berths stand right below their stored parents. -/
theorem Holds.attached (holds : s.Holds rows) (berthed : Berthed s.catalog rows) : s.Attached := by
  rw [Attached, holds.rows_eq]
  rintro p r ⟨stored, member, link, child, same⟩
  have table : p.table.id = link.table := congrArg Segment.table same
  have berth := berthed r member
  generalize place : r.key = key at berth
  cases berth with
  | seat seat =>
    rcases seat.child_cases child with ⟨q, stored', asked, place⟩ | ⟨missing, _⟩
    · rw [place, holds.mirrors.distinct q stored' p stored (asked.trans same.symm)]
      rfl
    · exact absurd same (missing p stored)
  | left link' _ _ missing =>
    obtain rfl := Option.some.inj (child.symm.trans link'.2)
    exact absurd same (missing p stored)

/-- A row right below its parent is seen to be below it, and stands in the branch of its parent. -/
theorem Attached.branch (attached : s.Attached) (holds : s.Holds rows) (batches : 1 ≤ s.batchSize)
    {p r : StoredRow} (parent : IsParent rows p r) : p.row.isAbove r.row = true ∧
      ∃ t shown, s.traverseBranch p.table.group p.key = .ok t ∧ t.Yields s shown ∧ r.row ∈ shown := by
  have place : r.key = p.key.push r.table.id r.own := by
    rw [← holds.rows_eq] at parent
    exact attached p r parent
  obtain ⟨stored, member, link, child, same⟩ := parent
  have valid := holds.mirrors.valid p stored
  have valid' := holds.mirrors.valid r member
  have above : p.key.isAbove r.key = true := by
    rw [place]
    exact (RowKey.isAbove_push_iff valid.written valid.written _ _).2 List.prefix_rfl
  have linked : s.catalog.Links p.table r.table link.column :=
    ⟨valid.known, by rw [child, show p.table.id = link.table from congrArg Segment.table same]⟩
  obtain ⟨g, inCatalog, found, _⟩ := holds.forest.groupName_spec valid.known
  have group : s.group p.table.group = .ok g := by
    rw [Store.group, found]
  obtain ⟨keys, shown, yields, each, _, members⟩ :=
    (holds.wellFormed inCatalog).branch holds.batches batches p.key
  have row : s.Stored g r.key r.row := by
    have has := holds.hasRow_iff.2 member
    obtain ⟨g', body, found', entry, decoded⟩ := has.entry
    rw [← holds.forest.parent_group valid'.known linked, found] at found'
    obtain rfl := Option.some.inj found'
    refine ⟨body, r.table, r.values, entry, has.readable, ?_, decoded, rfl⟩
    rw [has.last]
    exact has.known
  have listed : r.key ∈ keys := (members r.key).2 ⟨(RowKey.isAbove_iff_prefix.1 above).1, r.row, row⟩
  exact ⟨above, _, shown, by rw [traverseBranch, group]; rfl, yields, row.mem_of_forall₂ each listed⟩

theorem Holds.berthed_step (holds : s.Holds rows) (berthed : Berthed s.catalog rows)
    (free : ∀ t ∈ s.catalog.tables, allowed t → t.Storable → Yields s.catalog t) {change : Change}
    (spares : s.Spares allowed change) :
    ∃ rows', (s.after change).Holds rows' ∧ (s.after change).catalog = s.catalog ∧
      Berthed s.catalog rows' := by
  have forest := holds.forest
  have mirrors := holds.mirrors
  cases change with
  | insert id values =>
    rcases holds.insert_cases id values with
      ⟨error, refused⟩ | ⟨t, key, m, found, seat, valid, fresh, done, holds'⟩
    · exact ⟨rows, by rwa [Store.after, refused], by rw [Store.after, refused], berthed⟩
    · refine ⟨_, by rwa [Store.after, done], by rw [Store.after, done]; rfl, ?_⟩
      exact berthed.withRow forest mirrors valid fresh seat (spares t found)
  | delete id primary =>
    cases found : s.catalog.table? id with
    | none =>
      have refused : s.delete id primary = _ := Holds.delete_unknown found
      exact ⟨rows, by rwa [Store.after, refused], by rw [Store.after, refused], berthed⟩
    | some t =>
      have number := (forest.table?_eq_some found).2
      by_cases missing : ∀ r ∈ rows, r.segment ≠ .of t.id primary.keyForm
      · have none := holds.delete_missing found missing
        exact ⟨rows, by rwa [Store.after, none], by rw [Store.after, none], berthed⟩
      · simp only [not_forall, not_not] at missing
        obtain ⟨d, member, same⟩ := missing
        obtain ⟨m, done, holds'⟩ := holds.delete_stored found member same
        refine ⟨_, by rwa [Store.after, done], by rw [Store.after, done]; rfl, ?_⟩
        refine berthed.without forest mirrors member fun r parent => ?_
        have valid := mirrors.valid d member
        have permitted : allowed d.table := by
          refine spares d r ?_ (number ▸ same)
          rwa [holds.rows_eq]
        refine (free d.table valid.known permitted valid.storable).resolve_right fun bare => ?_
        obtain ⟨_, member', link, child, asked⟩ := parent
        have valid' := mirrors.valid r member'
        have table : d.table.id = link.table := congrArg Segment.table asked
        exact bare r.table valid'.known link.column ⟨valid.known, by rw [child, table]⟩ valid'.storable

theorem Holds.berthed_run (holds : s.Holds rows) (berthed : Berthed s.catalog rows)
    (free : ∀ t ∈ s.catalog.tables, allowed t → t.Storable → Yields s.catalog t)
    {changes : List Change} (careful : s.Careful allowed changes) : (s.run changes).Attached := by
  induction changes generalizing s rows with
  | nil => exact holds.attached berthed
  | cons change rest ih =>
    obtain ⟨rows', holds', same, berthed'⟩ := holds.berthed_step berthed free careful.1
    rw [← same] at berthed' free
    exact ih holds' berthed' free careful.2

end Store

end Interleave
