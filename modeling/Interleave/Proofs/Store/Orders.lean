import Interleave.Proofs.Store.Placement

/-!
Orders of insertion. Where rows stand at their places, each key follows from the table and the values of
its row and those above it, and what a store keeps follows from its rows. Main statement: acceptable rows
inserted in any two orders are all accepted, stand at their places, and leave the same contents.
-/

namespace Interleave

open Storage (ByteMap EngineConfig)

section Unique

variable {c : Catalog} {m m' : ByteMap} {rows rows' : Set StoredRow} (forest : c.Forest)
  (mirrors : Mirrors c m rows) (mirrors' : Mirrors c m' rows') (seated : Seated c rows)
  (seated' : Seated c rows')
include forest mirrors mirrors' seated seated'

/-- Rows told by the same tables and values have the same keys, by induction from the roots down. -/
theorem Seated.key_unique
    (same : ∀ t values, (∃ k, ⟨t, k, values⟩ ∈ rows) ↔ ∃ k, ⟨t, k, values⟩ ∈ rows') :
    ∀ t ∈ c.tables, ∀ values k k', ⟨t, k, values⟩ ∈ rows → ⟨t, k', values⟩ ∈ rows' → k = k' := by
  refine forest.induction ?_ ?_
  · intro t _ top values k k' member member'
    have seat : Seat c rows t values k := seated _ member
    have seat' : Seat c rows' t values k' := seated' _ member'
    rw [seat.of_root top, seat'.of_root top]
  · intro t known p column link ih values k k' member member'
    have seat : Seat c rows t values k := seated _ member
    have seat' : Seat c rows' t values k' := seated' _ member'
    rcases seat.child_cases link.2 with ⟨r, stored, parent, rfl⟩ | ⟨missing, rfl⟩ <;>
      rcases seat'.child_cases link.2 with ⟨r', stored', parent', rfl⟩ | ⟨missing', rfl⟩
    · obtain ⟨k, twin⟩ := (same r.table r.values).1 ⟨r.key, stored⟩
      have table : r.table = p :=
        forest.id_inj (mirrors.valid r stored).known link.1 (congrArg Segment.table parent)
      have equal := mirrors'.distinct _ twin _ stored' (parent.trans parent'.symm)
      have keys := ih r.values r.key k (table ▸ stored) (table ▸ twin)
      rw [keys, ← equal]
    · obtain ⟨k, twin⟩ := (same r.table r.values).1 ⟨r.key, stored⟩
      exact (missing' _ twin parent).elim
    · obtain ⟨k, twin⟩ := (same r'.table r'.values).2 ⟨r'.key, stored'⟩
      exact (missing _ twin parent').elim
    · rfl

/-- Rows told by the same tables and values are the same rows, and stores that keep them are the same. -/
theorem Seated.contents_unique
    (same : ∀ t values, (∃ k, ⟨t, k, values⟩ ∈ rows) ↔ ∃ k, ⟨t, k, values⟩ ∈ rows') : m = m' := by
  have keys := key_unique forest mirrors mirrors' seated seated' same
  have equal : rows = rows' := by
    ext r
    constructor
    · intro member
      obtain ⟨k, twin⟩ := (same r.table r.values).1 ⟨r.key, member⟩
      rwa [← keys r.table (mirrors.valid r member).known r.values r.key k member twin] at twin
    · intro member
      obtain ⟨k, twin⟩ := (same r.table r.values).2 ⟨r.key, member⟩
      rwa [keys r.table (mirrors'.valid r member).known r.values k r.key twin member] at twin
  exact (equal ▸ mirrors).unique mirrors'

end Unique

namespace Store

/-- The store after insertions one after another, the first refusal ending them. -/
def insertAll (s : Store) : List (TableId × List Value) → Except QueryError Store
  | [] => .ok s
  | (id, values) :: rest =>
    match s.insert id values with
    | .ok (_, s') => s'.insertAll rest
    | .error error => .error error

/-- Whether rows may be stored together: they fit their tables, no key value but that of a root is null,
and no two rows of a table have the same key value. -/
structure Acceptable (c : Catalog) (l : List (TableId × List Value)) : Prop where
  each : ∀ row ∈ l, ∃ t, c.table? row.1 = some t ∧ row.2.length = t.columnCount ∧
    (∃ body, Codec.Body.encodeRow row.2 = .ok body) ∧ (t.parent = none ∨ primaryKey t row.2 ≠ .null)
  distinct : l.Pairwise fun a b => ∀ t, c.table? a.1 = some t → c.table? b.1 = some t →
    (primaryKey t a.2).canonical ≠ (primaryKey t b.2).canonical

theorem Acceptable.perm {c : Catalog} {l l' : List (TableId × List Value)}
    (acceptable : Acceptable c l) (perm : l.Perm l') : Acceptable c l' where
  each row member := acceptable.each row (perm.mem_iff.2 member)
  distinct := by
    refine (perm.pairwise_iff ?_).1 acceptable.distinct
    exact fun apart t known known' same => apart t known' known same.symm

variable {s : Store} {rows : Set StoredRow}

/-- Acceptable rows are all accepted, and every row stays at its place. -/
theorem Holds.insertAll_ok (holds : s.Holds rows) (seated : Seated s.catalog rows)
    {l : List (TableId × List Value)} (acceptable : Acceptable s.catalog l)
    (fresh : ∀ row ∈ l, ∀ t, s.catalog.table? row.1 = some t →
      ∀ r ∈ rows, r.segment ≠ .of t.id (primaryKey t row.2)) :
    ∃ s' rows', s.insertAll l = .ok s' ∧ s'.catalog = s.catalog ∧ s'.Holds rows' ∧
      Seated s.catalog rows' ∧
      ∀ t values, (∃ k, ⟨t, k, values⟩ ∈ rows') ↔
        (∃ k, ⟨t, k, values⟩ ∈ rows) ∨ (s.catalog.table? t.id = some t ∧ (t.id, values) ∈ l) := by
  induction l generalizing s rows with
  | nil => exact ⟨s, rows, rfl, rfl, holds, seated, by simp⟩
  | cons row rest ih =>
    obtain ⟨id, values⟩ := row
    obtain ⟨t, known, counted, ⟨body, encodable⟩, named⟩ := acceptable.each _ List.mem_cons_self
    have ⟨inside, number⟩ := holds.forest.table?_eq_some known
    have absent := fresh _ List.mem_cons_self t known
    obtain ⟨key, m, seat, valid, done, holds'⟩ := holds.insert_ok known counted absent encodable
    have tells : t.parent = none ∨ s.catalog.Tells t (primaryKey t values) :=
      named.imp_right fun own null => absurd null own
    have seated' := seated.withRow holds.forest holds.mirrors valid absent seat tells
    have ⟨apart, distinct⟩ := List.pairwise_cons.1 acceptable.distinct
    have fresh' : ∀ row ∈ rest, ∀ t', s.catalog.table? row.1 = some t' →
        ∀ r ∈ withRow s.catalog rows ⟨t, key, values⟩,
          r.segment ≠ .of t'.id (primaryKey t' row.2) := by
      rintro row member t' known' _ ⟨r, stored, rfl⟩ same
      rw [StoredRow.segment_shift] at same
      rcases stored with rfl | stored
      · have inside' := (holds.forest.table?_eq_some known').1
        obtain rfl : t = t' := holds.forest.id_inj inside inside' (congrArg Segment.table same)
        exact apart row member t known known'
          (Codec.Sortable.encode_eq_iff.1 (congrArg Segment.value same))
      · exact fresh row (List.mem_cons_of_mem _ member) t' known' r stored same
    have acceptable' : Acceptable s.catalog rest :=
      ⟨fun row member => acceptable.each row (List.mem_cons_of_mem _ member), distinct⟩
    obtain ⟨s', rows', others, catalog, last, seats, told⟩ :=
      ih holds' seated' acceptable' fresh'
    refine ⟨s', rows', ?_, catalog, last, seats, fun t' values' => ?_⟩
    · rw [insertAll, done]
      exact others
    · have first : t' = t ∧ values' = values ↔
          s.catalog.table? t'.id = some t' ∧ (t'.id, values') = (id, values) := by
        rw [Prod.mk.injEq]
        constructor
        · rintro ⟨rfl, rfl⟩
          exact ⟨holds.forest.table?_id inside, number, rfl⟩
        · rintro ⟨known', number', rfl⟩
          exact ⟨holds.forest.id_inj (holds.forest.table?_eq_some known').1 inside
            (number'.trans number.symm), rfl⟩
      apply (told t' values').trans
      rw [mem_withRow_iff, first, List.mem_cons, or_assoc]
      exact or_congr_right and_or_left.symm

/-- The order of insertions does not matter. Acceptable rows are all stored, in whatever order they come;
the contents do not tell the order, and each row stands below its stored parent or, when the parent is
missing, below the place kept for it. -/
theorem insertAll_perm {declarations : List Declaration} {c : Catalog}
    (accepted : Catalog.ofDeclarations declarations = .ok c) (plain : c.Plain)
    {l l' : List (TableId × List Value)} (acceptable : Acceptable c l) (perm : l.Perm l')
    (config config' : EngineConfig) (size size' : Nat) :
    ∃ s s', (fresh c config size).insertAll l = .ok s ∧
      (fresh c config' size').insertAll l' = .ok s' ∧
      s.contents = s'.contents ∧
      (∀ t values, c.table? t.id = some t → ((t.id, values) ∈ l ↔ ∃ key, s.HasRow t key values)) ∧
      ∀ t key values, s.HasRow t key values → Seat c s.rows t values key := by
  have forest := Catalog.forest_of_declarations accepted
  have start := holds_fresh forest plain config size
  have start' := holds_fresh forest plain config' size'
  have none : Seated c ∅ := fun r member => member.elim
  obtain ⟨s, kept, done, catalog, holds, seated, told⟩ :=
    start.insertAll_ok none acceptable fun _ _ _ _ r member => member.elim
  obtain ⟨s', kept', done', catalog', holds', seated', told'⟩ :=
    start'.insertAll_ok none (acceptable.perm perm) fun _ _ _ _ r member => member.elim
  have mirrors := holds.mirrors
  have mirrors' := holds'.mirrors
  rw [catalog] at mirrors
  rw [catalog'] at mirrors'
  refine ⟨s, s', done, done', ?_, ?_, ?_⟩
  · refine Seated.contents_unique forest mirrors mirrors' seated seated' fun t values => ?_
    rw [told, told', perm.mem_iff]
    rfl
  · intro t values known
    have stored := told t values
    simp only [Set.mem_empty_iff_false, exists_false, false_or] at stored
    rw [exists_congr fun key => holds.hasRow_iff, stored]
    exact ⟨fun member => ⟨known, member⟩, And.right⟩
  · intro t key values row
    rw [holds.rows_eq]
    exact seated _ (holds.hasRow_iff.1 row)

/-- Two items that come before their order, and an order that comes before its customer. -/
def shopRows : List (TableId × List Value) :=
  [(⟨3⟩, [.int 7, .int 5]), (⟨3⟩, [.int 8, .int 5]), (⟨2⟩, [.int 5, .int 1]),
    (⟨1⟩, [.int 1, .text "ann"])]

theorem shopRows_acceptable : Acceptable shop shopRows where
  each row member := by
    simp only [shopRows, List.mem_cons, List.not_mem_nil, or_false] at member
    rcases member with rfl | rfl | rfl | rfl <;>
      exact ⟨_, rfl, rfl, ⟨_, rfl⟩, .inr (by decide +kernel)⟩
  distinct := by
    have forest := Catalog.forest_of_declarations shop_accepted
    have first : ∀ t ∈ shop.tables, t.primaryKey = 0 := by decide +kernel
    have apart : shopRows.Pairwise fun a b => a.1 = b.1 →
        ((a.2[0]?).getD Value.null).keyForm.canonical ≠
          ((b.2[0]?).getD Value.null).keyForm.canonical := by decide +kernel
    refine apart.imp fun {a b} different t known known' => ?_
    have ⟨member, number⟩ := forest.table?_eq_some known
    rw [primaryKey, primaryKey, first t member]
    exact different (number.symm.trans (forest.table?_eq_some known').2)

theorem insertAll_perm_shop : Catalog.ofDeclarations shopDeclarations = .ok shop ∧ shop.Plain ∧
    Acceptable shop shopRows ∧ shopRows.Perm shopRows.reverse ∧
    ∃ s s', (fresh shop .standard 256).insertAll shopRows = .ok s ∧
      (fresh shop .standard 1).insertAll shopRows.reverse = .ok s' ∧ s.contents = s'.contents ∧
      (∀ t values, shop.table? t.id = some t →
        ((t.id, values) ∈ shopRows ↔ ∃ key, s.HasRow t key values)) ∧
      ∀ t key values, s.HasRow t key values → Seat shop s.rows t values key :=
  ⟨shop_accepted, shop_plain, shopRows_acceptable, shopRows.reverse_perm.symm,
    insertAll_perm shop_accepted shop_plain shopRows_acceptable shopRows.reverse_perm.symm
      .standard .standard 256 1⟩

end Store

end Interleave
