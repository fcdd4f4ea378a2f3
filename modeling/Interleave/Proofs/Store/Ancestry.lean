import Interleave.Proofs.Store.Placement

/-!
Ancestry and keys. A row descends from a stored row when its foreign key, followed up through stored
rows, leads there. Where every row stands at its place, the rows whose keys begin that of another are its
ancestors, but for one case: a row with a null key value has the key that keeps its place for the
missing rows far below it. Main statement: the keys of inserted rows tell ancestry in every run exactly
when null key values are kept out of the tables that have such rows below them.
-/

namespace Interleave

open Storage (EngineConfig)

/-- Whether a stored row has the key value that another stored row asks for in its parent. -/
def IsParent (rows : Set StoredRow) (p r : StoredRow) : Prop :=
  p ∈ rows ∧ r ∈ rows ∧ ∃ link, r.table.parent = some link ∧
    p.segment = .of link.table (Store.foreignKey link r.values)

/-- Whether foreign keys lead up from one stored row to another. -/
inductive Ancestor (rows : Set StoredRow) : StoredRow → StoredRow → Prop where
  | parent {p r : StoredRow} (first : IsParent rows p r) : Ancestor rows p r
  | above {p q r : StoredRow} (others : Ancestor rows p q) (first : IsParent rows q r) :
      Ancestor rows p r

section Seated

variable {c : Catalog} {m : Storage.ByteMap} {rows : Set StoredRow} (forest : c.Forest)
  (mirrors : Mirrors c m rows) (seated : Seated c rows)
include mirrors seated

theorem IsParent.isAbove {p r : StoredRow} (parent : IsParent rows p r) :
    p.key.isAbove r.key = true := by
  obtain ⟨member, member', link, child, same⟩ := parent
  rcases (seated r member').child_cases child with ⟨q, stored, asked, place⟩ | ⟨missing, _⟩
  · have equal := mirrors.distinct q stored p member (asked.trans same.symm)
    have written := (mirrors.valid p member).written
    rw [place, equal]
    exact (RowKey.isAbove_push_iff written written _ _).2 List.prefix_rfl
  · exact absurd same (missing p member)

theorem Ancestor.isAbove {p r : StoredRow} (ancestor : Ancestor rows p r) :
    p.key.isAbove r.key = true := by
  induction ancestor with
  | parent first => exact first.isAbove mirrors seated
  | above _ first ih => exact RowKey.isAbove_trans ih (first.isAbove mirrors seated)

include forest

omit seated in
/-- A row above the place kept for a missing row has a null key value, and its table is far above. -/
theorem null_of_above_apart {p : StoredRow} (member : p ∈ rows) {u w : Table} {column : Nat}
    (link : c.Links u w column) {v : Value} (missing : ∀ r ∈ rows, r.segment ≠ .of u.id v)
    (above : p.key.segments <+: (Store.orphanKey c u.id v).segments) :
    p.own = .null ∧ c.FarAbove p.table w := by
  have valid := mirrors.valid p member
  have last : p.segment ∈ p.key.segments := List.mem_of_getLast? valid.last
  rw [Store.segments_orphanKey forest link.1, List.prefix_concat_iff] at above
  rcases above with same | inside
  · have ends := valid.last
    rw [same, List.getLast?_concat] at ends
    exact absurd (Option.some.inj ends).symm (missing p member)
  · obtain ⟨q, onPath, same⟩ := List.mem_map.1 (inside.subset last)
    have inCatalog := (forest.mem_path u link.1 q ((List.dropLast_subset _) onPath)).1
    obtain rfl := forest.id_inj inCatalog valid.known (congrArg Segment.table same)
    exact ⟨Codec.Sortable.encode_eq_null_iff.1 (congrArg Segment.value same).symm, u, column,
      link, onPath⟩

/-- The rows above a row are its ancestors, unless a null key value stands where a missing row would. -/
theorem ancestor_of_isAbove {p : StoredRow} (member : p ∈ rows) (tells : c.Tells p.table p.own) :
    ∀ t ∈ c.tables, ∀ r ∈ rows, r.table = t → p.key.isAbove r.key = true → Ancestor rows p r := by
  have valid := mirrors.valid p member
  have nonempty : p.key.segments ≠ [] := by
    intro empty
    have last := valid.last
    simp [empty] at last
  refine forest.induction ?_ ?_
  · rintro _ _ top r member' rfl above
    have place := (seated r member').of_root top
    rw [place, RowKey.isAbove_push_iff valid.written RowKey.isWritten_empty] at above
    exact absurd (List.prefix_nil.1 above) nonempty
  · rintro _ _ u column link ih r member' rfl above
    rcases (seated r member').child_cases link.2 with ⟨q, stored, asked, place⟩ | ⟨missing, place⟩
    · have valid' := mirrors.valid q stored
      have parent : IsParent rows q r := ⟨stored, member', _, link.2, asked⟩
      rw [place, RowKey.isAbove_push_iff valid.written valid'.written] at above
      by_cases same : q = p
      · exact .parent (same ▸ parent)
      · have table : q.table = u := forest.id_inj valid'.known link.1 (congrArg Segment.table asked)
        obtain ⟨below, split⟩ := above
        refine .above (ih q stored table ?_) parent
        rw [RowKey.isAbove_iff_segments valid.written valid'.written]
        refine ⟨below, ?_, split.symm⟩
        rintro rfl
        rw [List.append_nil] at split
        have last := valid.last
        rw [split, valid'.last] at last
        exact same (mirrors.distinct q stored p member (Option.some.inj last))
    · rw [place, RowKey.isAbove_push_iff valid.written (Store.isWritten_orphanKey _)] at above
      have ⟨null, far⟩ := null_of_above_apart forest mirrors member link missing above
      have valid' := mirrors.valid r member'
      exact absurd far (tells null r.table valid'.known valid'.storable)

omit forest seated in
/-- A key at the end of a table's path that begins another such key is that key. -/
theorem eq_of_isPrefix {p q : StoredRow} (member : p ∈ rows) (member' : q ∈ rows)
    (table : p.table = q.table) (inside : p.key.segments <+: q.key.segments) : p = q := by
  have valid := mirrors.valid p member
  have valid' := mirrors.valid q member'
  have path := valid.path
  rw [table, ← valid'.path] at path
  have length := congrArg List.length path
  rw [List.length_map, List.length_map] at length
  have same := inside.eq_of_length length
  have last := valid.last
  rw [same, valid'.last] at last
  exact mirrors.distinct p member q member' (Option.some.inj last).symm

omit seated in
/-- A place is below a row of the parent's table exactly when the foreign key names that row. -/
theorem Seat.isAbove_iff {p : StoredRow} (member : p ∈ rows) {t : Table} {column : Nat}
    (link : c.Links p.table t column) {values : List Value} {k : RowKey}
    (seat : Seat c rows t values k) : p.key.isAbove k = true ↔
      p.segment = .of p.table.id (Store.foreignKey ⟨p.table.id, column⟩ values) := by
  have valid := mirrors.valid p member
  rcases seat.child_cases link.2 with ⟨q, stored, asked, rfl⟩ | ⟨missing, rfl⟩
  · have valid' := mirrors.valid q stored
    have table : p.table = q.table :=
      forest.id_inj valid.known valid'.known (congrArg Segment.table asked).symm
    rw [RowKey.isAbove_push_iff valid.written valid'.written]
    constructor
    · intro above
      exact (congrArg StoredRow.segment (eq_of_isPrefix mirrors member stored table above)).trans asked
    · intro named
      have same := mirrors.distinct p member q stored (named.trans asked.symm)
      exact same ▸ List.prefix_rfl
  · rw [RowKey.isAbove_push_iff valid.written (Store.isWritten_orphanKey _)]
    refine iff_of_false (fun above => ?_) (missing p member)
    have path := Store.follows_orphanKey forest valid.known
      (Store.foreignKey ⟨p.table.id, column⟩ values)
    have length := congrArg List.length (valid.path.trans path.symm)
    rw [List.length_map, List.length_map] at length
    have last := valid.last
    rw [above.eq_of_length length, Store.segments_orphanKey forest valid.known,
      List.getLast?_concat] at last
    exact missing p member (Option.some.inj last).symm

/-- A row of the parent's table that stands above a row is its parent. -/
theorem isParent_of_isAbove {p r : StoredRow} (member : p ∈ rows) (member' : r ∈ rows)
    {column : Nat} (link : c.Links p.table r.table column) (above : p.key.isAbove r.key = true) :
    IsParent rows p r :=
  ⟨member, member', _, link.2,
    ((seated r member').isAbove_iff forest mirrors member link).1 above⟩

end Seated

/-- A row that stands at the place kept for it moves no other. -/
theorem withRow_home {c : Catalog} {rows : Set StoredRow} {n : StoredRow} (valid : n.Valid c)
    (valid' : ∀ r ∈ rows, r.Valid c) (home : n.key = Store.orphanKey c n.table.id n.own) :
    withRow c rows n = insert n rows := by
  rw [withRow, home]
  refine (Set.image_congr fun r member => ?_).trans (Set.image_id _)
  exact StoredRow.shift_self (Set.forall_mem_insert.2 ⟨valid, valid'⟩ r member)
    (Store.isWritten_orphanKey n.own)

namespace Store

variable {s : Store} {rows : Set StoredRow}

/-- What insertions lead to: no row is lost, every new one was asked for, and rows stay at their places if,
of all that are stored in the end, none has a null key value below which others could seem to stand. -/
structure Grows (s : Store) (rows : Set StoredRow) (l : List (TableId × List Value)) (s' : Store)
    (rows' : Set StoredRow) : Prop where
  holds : s'.Holds rows'
  catalog : s'.catalog = s.catalog
  batchSize : s'.batchSize = s.batchSize
  kept : ∀ r ∈ rows, ∃ k, ⟨r.table, k, r.values⟩ ∈ rows'
  asked : ∀ r ∈ rows', (∃ k, ⟨r.table, k, r.values⟩ ∈ rows) ∨ (r.table.id, r.values) ∈ l
  seated : (∀ r ∈ rows', r.table.parent = none ∨ s.catalog.Tells r.table r.own) →
    Seated s.catalog rows → Seated s.catalog rows'

theorem Grows.refl (holds : s.Holds rows) (l : List (TableId × List Value)) :
    Grows s rows l s rows where
  holds := holds
  catalog := rfl
  batchSize := rfl
  kept r member := ⟨r.key, member⟩
  asked r member := .inl ⟨r.key, member⟩
  seated _ seated := seated

theorem Holds.grows_step (holds : s.Holds rows) (id : TableId) (values : List Value) :
    ∃ rows', Grows s rows [(id, values)] (s.after (.insert id values)) rows' := by
  rcases holds.insert_cases id values with
    ⟨error, refused⟩ | ⟨t, key, m, found, seat, valid, fresh, done, holds'⟩
  · have same : s.after (.insert id values) = s := by rw [Store.after, refused]
    rw [same]
    exact ⟨rows, .refl holds _⟩
  · have next : s.after (.insert id values) = s.withContents m := by rw [Store.after, done]
    have number := (holds.forest.table?_eq_some found).2
    rw [next]
    refine ⟨_, holds', rfl, rfl, ?_, ?_, ?_⟩
    · exact fun r member => mem_withRow_iff.2 (.inl ⟨r.key, member⟩)
    · intro r member
      rcases mem_withRow_iff.1 ⟨r.key, member⟩ with before | ⟨table, same⟩
      · exact .inl before
      · rw [table, same, number]
        exact .inr (List.mem_singleton_self _)
    · intro tells seated
      obtain ⟨k, new⟩ := (mem_withRow_iff (n := ⟨t, key, values⟩)).2 (.inr ⟨rfl, rfl⟩)
      have apart : t.parent = none ∨ s.catalog.Tells t (primaryKey t values) := tells _ new
      exact seated.withRow holds.forest holds.mirrors valid fresh seat apart

theorem Grows.trans {s s' s'' : Store} {rows rows' rows'' : Set StoredRow}
    {l l' : List (TableId × List Value)} (first : Grows s rows l s' rows')
    (second : Grows s' rows' l' s'' rows'') : Grows s rows (l ++ l') s'' rows'' where
  holds := second.holds
  catalog := second.catalog.trans first.catalog
  batchSize := second.batchSize.trans first.batchSize
  kept r member := by
    obtain ⟨k, stored⟩ := first.kept r member
    exact second.kept ⟨r.table, k, r.values⟩ stored
  asked r member := by
    rcases second.asked r member with ⟨k, stored⟩ | new
    · exact (first.asked _ stored).imp_right fun new => List.mem_append_left _ new
    · exact .inr (List.mem_append_right _ new)
  seated tells seated := by
    have seats := second.seated
    rw [first.catalog] at seats
    refine seats tells (first.seated (fun r member => ?_) seated)
    obtain ⟨k, stored⟩ := second.kept r member
    exact tells ⟨r.table, k, r.values⟩ stored

theorem Holds.grows (holds : s.Holds rows) (l : List (TableId × List Value)) :
    ∃ rows', Grows s rows l (s.run (insertions l)) rows' := by
  induction l generalizing s rows with
  | nil => exact ⟨rows, .refl holds []⟩
  | cons row rest ih =>
    obtain ⟨rows', step⟩ := holds.grows_step row.1 row.2
    obtain ⟨rows'', others⟩ := ih step.holds
    exact ⟨rows'', step.trans others⟩

/-- Whether the keys of the rows of a group tell which row descends from which. -/
def PrefixesTell (s : Store) : Prop :=
  ∀ p ∈ s.rows, ∀ r ∈ s.rows, p.table.group = r.table.group →
    (p.key.isAbove r.key = true ↔ Ancestor s.rows p r)

theorem Holds.prefixesTell (holds : s.Holds rows) (seated : Seated s.catalog rows)
    (tells : ∀ r ∈ rows, s.catalog.Tells r.table r.own) : s.PrefixesTell := by
  unfold PrefixesTell
  rw [holds.rows_eq]
  intro p member r member' _
  constructor
  · exact ancestor_of_isAbove holds.forest holds.mirrors seated member (tells p member) r.table
      (holds.mirrors.valid r member').known r member' rfl
  · exact Ancestor.isAbove holds.mirrors seated

/-- The row of nulls in a table, where it stands when it comes first. -/
def nullRow (c : Catalog) (t : Table) : StoredRow :=
  ⟨t, orphanKey c t.id .null, List.replicate t.columnCount .null⟩

/-- A row of zeros whose parent is missing. -/
def lateRow (c : Catalog) (p t : Table) : StoredRow :=
  ⟨t, (orphanKey c p.id (.int 0)).push t.id (.int 0), List.replicate t.columnCount (.int 0)⟩

/-- Two insertions: a row of nulls, and a row of zeros. -/
def shadowing (t w : Table) : List (TableId × List Value) :=
  [(t.id, List.replicate t.columnCount .null), (w.id, List.replicate w.columnCount (.int 0))]

section Shadow

variable {c : Catalog} (forest : c.Forest)
include forest

theorem primaryKey_replicate {t : Table} (known : t ∈ c.tables) (v : Value) :
    primaryKey t (List.replicate t.columnCount v) = v.keyForm := by
  rw [primaryKey, List.getElem?_replicate, if_pos (forest.fits t known).primaryKey]
  rfl

theorem foreignKey_replicate {p t : Table} {column : Nat} (known : t ∈ c.tables)
    (link : c.Links p t column) (v : Value) :
    foreignKey ⟨p.id, column⟩ (List.replicate t.columnCount v) = v.keyForm := by
  rw [foreignKey, List.getElem?_replicate, if_pos (forest.column_lt known link)]
  rfl

theorem own_nullRow {t : Table} (known : t ∈ c.tables) : (nullRow c t).own = .null :=
  primaryKey_replicate forest known .null

theorem own_lateRow {p t : Table} (known : t ∈ c.tables) : (lateRow c p t).own = .int 0 :=
  primaryKey_replicate forest known (.int 0)

theorem key_of_seat_nulls {t : Table} (known : t ∈ c.tables) {k : RowKey}
    (seat : Seat c ∅ t (List.replicate t.columnCount .null) k) : k = orphanKey c t.id .null := by
  have own : primaryKey t (List.replicate t.columnCount .null) = .null :=
    primaryKey_replicate forest known .null
  rcases forest.parent_cases known with top | ⟨p, column, link⟩
  · rw [seat.of_root top, orphanKey_of_root forest known top, own]
  · rcases seat.child_cases link.2 with ⟨r, stored, _⟩ | ⟨_, place⟩
    · exact stored.elim
    · have foreign : foreignKey ⟨p.id, column⟩ (List.replicate t.columnCount .null) = .null :=
        foreignKey_replicate forest known link .null
      rw [place, own, foreign]
      exact (orphanKey_child forest known link .null).symm

omit forest in
theorem insert_nullRow {s : Store} (holds : s.Holds ∅) {t : Table} (known : t ∈ s.catalog.tables)
    (storable : t.Storable) :
    ∃ key m, s.insert t.id (List.replicate t.columnCount .null) = .ok (key, s.withContents m) ∧
      (s.withContents m).Holds {nullRow s.catalog t} := by
  obtain ⟨body, encodable⟩ := Codec.Body.encodeRow_replicate (v := .null) rfl storable
  obtain ⟨key, m, seat, valid, done, holds'⟩ := holds.insert_ok (holds.forest.table?_id known)
    List.length_replicate (fun r member => member.elim) encodable
  have place := key_of_seat_nulls holds.forest known seat
  subst place
  have home : (nullRow s.catalog t).key = orphanKey s.catalog t.id (nullRow s.catalog t).own := by
    rw [own_nullRow holds.forest known]
    rfl
  have only : withRow s.catalog ∅ (nullRow s.catalog t) = {nullRow s.catalog t} := by
    have alone : ∀ r ∈ (∅ : Set StoredRow), r.Valid s.catalog := fun r member => member.elim
    exact (withRow_home valid alone home).trans (insert_empty_eq _)
  exact ⟨_, m, done, only ▸ holds'⟩

/-- A row that comes in deeper in the hierarchy than the only other one leaves that one where it is. -/
theorem withRow_lateRow {t p w : Table} (stored : (nullRow c t).Valid c)
    (valid : (lateRow c p w).Valid c) (before : (c.path t.id).length < (c.path w.id).length) :
    withRow c {nullRow c t} (lateRow c p w) = {lateRow c p w, nullRow c t} := by
  refine withRow_of_deeper forest valid ?_ ?_
  · rintro _ rfl
    exact stored
  · rintro _ rfl
    exact before

omit forest in
theorem insert_lateRow {s : Store} {t p w : Table} {column : Nat}
    (holds : s.Holds {nullRow s.catalog t}) (known : w ∈ s.catalog.tables) (storable : w.Storable)
    (link : s.catalog.Links p w column)
    (before : (s.catalog.path t.id).length < (s.catalog.path w.id).length) (different : t ≠ p) :
    ∃ key m, s.insert w.id (List.replicate w.columnCount (.int 0)) = .ok (key, s.withContents m) ∧
      (s.withContents m).Holds {lateRow s.catalog p w, nullRow s.catalog t} := by
  have forest := holds.forest
  have stored := holds.mirrors.valid _ (Set.mem_singleton (nullRow s.catalog t))
  obtain ⟨body, encodable⟩ := Codec.Body.encodeRow_replicate (v := .int 0) rfl storable
  have fresh : ∀ r ∈ ({nullRow s.catalog t} : Set StoredRow),
      r.segment ≠ .of w.id (primaryKey w (List.replicate w.columnCount (.int 0))) := by
    rintro _ rfl same
    rw [show t.id = w.id from congrArg Segment.table same] at before
    exact Nat.lt_irrefl _ before
  obtain ⟨key, m, seat, valid, done, holds'⟩ :=
    holds.insert_ok (forest.table?_id known) List.length_replicate fresh encodable
  have place : key = (lateRow s.catalog p w).key := by
    rcases seat.child_cases link.2 with ⟨_, rfl, parent, _⟩ | ⟨_, place⟩
    · exact absurd (forest.id_inj stored.known link.1 (congrArg Segment.table parent)) different
    · have own : primaryKey w (List.replicate w.columnCount (.int 0)) = .int 0 :=
        primaryKey_replicate forest known (.int 0)
      have foreign : foreignKey ⟨p.id, column⟩ (List.replicate w.columnCount (.int 0)) = .int 0 :=
        foreignKey_replicate forest known link (.int 0)
      rw [place, own, foreign]
      rfl
  have row : (⟨w, key, List.replicate w.columnCount (.int 0)⟩ : StoredRow) =
      lateRow s.catalog p w := by
    rw [place]
    rfl
  rw [row] at valid holds'
  rw [withRow_lateRow forest stored valid before] at holds'
  exact ⟨key, m, done, holds'⟩

/-- The key of the row of nulls begins that of a row far below it, which waits for a parent that is not
stored: nothing but nulls stands above either. -/
theorem isAbove_lateRow {t p w : Table} {column : Nat} (known : t ∈ c.tables)
    (link : c.Links p w column) (above : t ∈ (c.path p.id).dropLast) :
    (nullRow c t).key.isAbove (lateRow c p w).key = true := by
  obtain ⟨q, _, link', onPath, _⟩ := forest.above_cases link.1 above
  have whole : (nullRow c t).key.segments = (c.path t.id).map fun u => Segment.of u.id .null := by
    rw [nullRow, segments_orphanKey forest known]
    conv_rhs => rw [forest.path_getLast known, List.map_append]
    rfl
  refine (RowKey.isAbove_push_iff (a := (nullRow c t).key) (b := orphanKey c p.id (.int 0))
    (isWritten_orphanKey _) (isWritten_orphanKey _) w.id (.int 0)).2 ?_
  rw [whole, segments_orphanKey forest link.1, forest.path_child link.1 link', List.dropLast_concat]
  exact ((forest.path_of_mem q link'.1 t onPath).map _).trans (List.prefix_append _ _)

/-- Neither of the two rows descends from the other: their parents' tables are others. -/
theorem not_ancestor_lateRow {t p w : Table} {column : Nat} (known : t ∈ c.tables)
    (known' : w ∈ c.tables) (link : c.Links p w column) (different : t ≠ p) (q : StoredRow) :
    ¬ Ancestor {lateRow c p w, nullRow c t} q (lateRow c p w) := by
  suffices none : ∀ q, ¬ IsParent {lateRow c p w, nullRow c t} q (lateRow c p w) by
    intro ancestor
    cases ancestor with
    | parent first => exact none _ first
    | above _ first => exact none _ first
  rintro q ⟨member, _, link', child, same⟩
  have parent : link' = ⟨p.id, column⟩ := Option.some.inj (child.symm.trans link.2)
  have table : q.table.id = p.id :=
    (congrArg Segment.table same).trans (congrArg ParentLink.table parent)
  rcases member with rfl | rfl
  · have less := forest.parent_lt known' link
    rw [← table] at less
    exact absurd less (Nat.lt_irrefl _)
  · exact different (forest.id_inj known link.1 table)

omit forest in
/-- A null key value in a table hides that a row far below it descends from no row of it. -/
theorem shadow {s : Store} (holds : s.Holds ∅) {t w : Table} (known : t ∈ s.catalog.tables)
    (known' : w ∈ s.catalog.tables) (storable : t.Storable) (storable' : w.Storable)
    (far : s.catalog.FarAbove t w) :
    (∀ r ∈ (s.run (insertions (shadowing t w))).rows, r.own = .null → r.table = t) ∧
      ¬ (s.run (insertions (shadowing t w))).PrefixesTell := by
  obtain ⟨p, column, link, above⟩ := far
  have forest := holds.forest
  obtain ⟨q, column', link', onPath, less⟩ := forest.above_cases link.1 above
  have different : t ≠ p := by
    rintro rfl
    exact Nat.lt_irrefl _ less
  have before : (s.catalog.path t.id).length < (s.catalog.path w.id).length := by
    have below := (forest.path_of_mem p link.1 t ((List.dropLast_subset _) above)).length_le
    rw [forest.path_child known' link, List.length_append, List.length_singleton]
    omega
  have group : t.group = w.group :=
    (forest.mem_path p link.1 t ((List.dropLast_subset _) above)).2.2.trans
      (forest.parent_group known' link)
  obtain ⟨key, m, done, holds₁⟩ := insert_nullRow holds known storable
  obtain ⟨key', m', done', holds₂⟩ := insert_lateRow holds₁ known' storable' link before different
  have first : s.after (.insert t.id (List.replicate t.columnCount .null)) = s.withContents m := by
    rw [Store.after, done]
  have second : (s.withContents m).after (.insert w.id (List.replicate w.columnCount (.int 0))) =
      (s.withContents m).withContents m' := by
    rw [Store.after, done']
  have last : s.run (insertions (shadowing t w)) = (s.withContents m).withContents m' := by
    rw [Store.run, insertions, shadowing, List.map_cons, List.map_cons, List.map_nil,
      List.foldl_cons, List.foldl_cons, List.foldl_nil, first, second]
  have rows : (s.run (insertions (shadowing t w))).rows =
      {lateRow s.catalog p w, nullRow s.catalog t} := by
    rw [last]
    exact holds₂.rows_eq
  rw [PrefixesTell, rows]
  constructor
  · rintro r (rfl | rfl) null
    · rw [own_lateRow forest known'] at null
      cases null
    · rfl
  · intro tells
    have same := tells _ (Set.mem_insert_of_mem _ rfl) _ (Set.mem_insert _ _) group
    exact not_ancestor_lateRow forest known known' link different _
      (same.1 (isAbove_lateRow forest known link above))

end Shadow

/-- Keys tell ancestry in every run of insertions whose null key values stay in certain tables exactly
when none of those tables is far above another. -/
theorem prefixesTell_iff {declarations : List Declaration} {c : Catalog}
    (accepted : Catalog.ofDeclarations declarations = .ok c) (plain : c.Plain)
    (config : EngineConfig) (batchSize : Nat) (allowed : Table → Prop) :
    (∀ l, (∀ r ∈ ((fresh c config batchSize).run (insertions l)).rows,
        r.own = .null → allowed r.table) →
      ((fresh c config batchSize).run (insertions l)).PrefixesTell) ↔
    ∀ t ∈ c.tables, allowed t → t.Storable → ∀ w ∈ c.tables, w.Storable → ¬ c.FarAbove t w := by
  have forest := Catalog.forest_of_declarations accepted
  have start := holds_fresh forest plain config batchSize
  constructor
  · intro tells t known permitted storable w known' storable' far
    have hidden := shadow start known known' storable storable' far
    exact hidden.2 (tells _ fun r member null => hidden.1 r member null ▸ permitted)
  · intro apart l nulls
    obtain ⟨rows, grown⟩ := start.grows l
    rw [grown.holds.rows_eq] at nulls
    have tells : ∀ r ∈ rows, c.Tells r.table r.own := by
      intro r member null w known storable
      have valid := grown.holds.mirrors.valid r member
      rw [grown.catalog] at valid
      exact apart r.table valid.known (nulls r member null) valid.storable w known storable
    have seated := grown.seated (fun r member => .inr (tells r member)) fun r member => member.elim
    apply grown.holds.prefixesTell
    · rwa [grown.catalog]
    · rwa [grown.catalog]

/-- In the shop only items are far below a table, and only below customers. -/
theorem prefixesTell_shop : Catalog.ofDeclarations shopDeclarations = .ok shop ∧ shop.Plain ∧
    ∀ l, (∀ r ∈ ((fresh shop .standard 256).run (insertions l)).rows,
        r.own = .null → r.table.name ≠ "customer") →
      ((fresh shop .standard 256).run (insertions l)).PrefixesTell := by
  refine ⟨shop_accepted, shop_plain,
    (prefixesTell_iff shop_accepted shop_plain .standard 256 (·.name ≠ "customer")).2 ?_⟩
  rintro t _ other _ w known _ ⟨p, column, link, above⟩
  have parents : ∀ w ∈ shop.tables, ∀ link ∈ w.parent,
      ∀ t ∈ (shop.path link.table).dropLast, t.name = "customer" := by
    decide +kernel
  exact other (parents w known _ link.2 t above)

theorem shadow_shop :
    ¬ ((fresh shop .standard 256).run
      (insertions [(⟨1⟩, [.null, .null]), (⟨3⟩, [.int 0, .int 0])])).PrefixesTell := by
  have customer := shop_known shopCustomer (by simp)
  have order := shop_known shopOrder (by simp)
  have item := shop_known shopItem (by simp)
  have start := holds_fresh (Catalog.forest_of_declarations shop_accepted) shop_plain .standard 256
  exact (shadow start customer item (by decide) (by decide)
    ⟨_, 1, ⟨order, rfl⟩, by decide +kernel⟩).2

end Store

end Interleave
