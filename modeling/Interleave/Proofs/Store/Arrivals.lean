import Interleave.Proofs.Key.Preorder
import Interleave.Proofs.Store.Ledger
import Interleave.Proofs.Store.Placement

/-!
A new row and the rows before it. Main statements: a new row gives new keys to the rows below the key
kept for it and changes nothing else, so no two rows come to have one key; and a deletion takes a new
row back, leaving the store as it was, exactly when the new row moved no other.
-/

namespace Interleave

open Storage (ByteMap EngineConfig)

/-- What a new row does to the rows before it: where a key begins with the key kept for the new row, the
new row's key takes the place of that beginning. -/
structure Relabels (waiting : RowKey) (n : StoredRow) (before after : Set StoredRow) : Prop where
  fresh : ∀ r ∈ before, r.segment ≠ n.segment
  rows : after = insert n (StoredRow.shift waiting n.key '' before)
  kept : ∀ r ∈ before, (r.shift waiting n.key).table = r.table ∧
    (r.shift waiting n.key).values = r.values
  moves : ∀ r ∈ before, (r.shift waiting n.key).key ≠ r.key ↔
    waiting.bytes <+: r.key.bytes ∧ waiting ≠ n.key
  replaced : ∀ r ∈ before, ∀ rest, r.key.bytes = waiting.bytes ++ rest →
    (r.shift waiting n.key).key.bytes = n.key.bytes ++ rest
  ordered : ∀ r ∈ before, ∀ r' ∈ before, waiting.bytes <+: r.key.bytes →
    waiting.bytes <+: r'.key.bytes →
    (r.shift waiting n.key).key.order (r'.shift waiting n.key).key = r.key.order r'.key
  apart : ∀ r ∈ before, (r.shift waiting n.key).key ≠ n.key ∧
    ∀ r' ∈ before, (r.shift waiting n.key).key = (r'.shift waiting n.key).key → r = r'

section Arrival

variable {c : Catalog} {m m' : ByteMap} {rows : Set StoredRow} (forest : c.Forest)
  (mirrors : Mirrors c m rows) {n : StoredRow} (valid : n.Valid c)
include forest mirrors valid

section Rest

variable (fresh : ∀ r ∈ rows, r.segment ≠ n.segment) {r : StoredRow} (member : r ∈ rows)
include fresh member

/-- No row before stands at the key kept for the new row. -/
theorem isAbove_of_bytes (inside : (Store.orphanKey c n.table.id n.own).bytes <+: r.key.bytes) :
    (Store.orphanKey c n.table.id n.own).isAbove r.key = true := by
  have valid' := mirrors.valid r member
  refine isAbove_of_inside forest valid' valid.known (fresh r member) ?_
  rwa [← RowKey.bytes_prefix_iff (Store.isWritten_orphanKey n.own) valid'.written]

theorem bytes_shift {rest : Bytes}
    (split : r.key.bytes = (Store.orphanKey c n.table.id n.own).bytes ++ rest) :
    (r.shift (Store.orphanKey c n.table.id n.own) n.key).key.bytes = n.key.bytes ++ rest := by
  have inside : (Store.orphanKey c n.table.id n.own).bytes <+: r.key.bytes := ⟨rest, split.symm⟩
  rw [StoredRow.shift, if_pos (isAbove_of_bytes forest mirrors valid fresh member inside),
    StoredRow.bytes_relocate (mirrors.valid r member) (Store.isWritten_orphanKey n.own) inside, split,
    List.drop_left]

theorem key_shift_ne_iff :
    (r.shift (Store.orphanKey c n.table.id n.own) n.key).key ≠ r.key ↔
      (Store.orphanKey c n.table.id n.own).bytes <+: r.key.bytes ∧
        Store.orphanKey c n.table.id n.own ≠ n.key := by
  have written : (Store.orphanKey c n.table.id n.own).IsWritten := Store.isWritten_orphanKey n.own
  constructor
  · intro moved
    refine ⟨?_, fun home => moved ?_⟩
    · by_contra outside
      refine moved (congrArg StoredRow.key (if_neg fun above => outside ?_))
      exact (RowKey.isAbove_iff_prefix.1 above).1
    · rw [home, StoredRow.shift_self (mirrors.valid r member) valid.written]
  · rintro ⟨⟨rest, split⟩, other⟩ same
    have moved := bytes_shift forest mirrors valid fresh member split.symm
    rw [same, ← split] at moved
    exact other ((RowKey.bytes_inj written valid.written).1 (List.append_cancel_right moved))

end Rest

/-- The rows that a new row leaves are those before it under their new keys. -/
theorem relabels_withRow (fresh : ∀ r ∈ rows, r.segment ≠ n.segment)
    (mirrors' : Mirrors c m' (withRow c rows n)) :
    Relabels (Store.orphanKey c n.table.id n.own) n rows (withRow c rows n) where
  fresh := fresh
  rows := withRow_eq forest valid
  kept _ _ := ⟨StoredRow.table_shift, StoredRow.values_shift⟩
  moves _ member := key_shift_ne_iff forest mirrors valid fresh member
  replaced _ member _ split := bytes_shift forest mirrors valid fresh member split
  ordered := by
    rintro r member r' member' ⟨rest, split⟩ ⟨rest', split'⟩
    rw [RowKey.order, RowKey.order, bytes_shift forest mirrors valid fresh member split.symm,
      bytes_shift forest mirrors valid fresh member' split'.symm, ← split, ← split',
      Bytes.order_append_left, Bytes.order_append_left]
  apart r member := by
    have stored := mirrors'.valid _ (shift_mem_withRow member)
    constructor
    · intro same
      have segments := stored.segment_eq_of_key valid (congrArg RowKey.bytes same)
      exact fresh r member (StoredRow.segment_shift.symm.trans segments)
    · intro r' member' same
      have stored' := mirrors'.valid _ (shift_mem_withRow member')
      have segments := stored.segment_eq_of_key stored' (congrArg RowKey.bytes same)
      rw [StoredRow.segment_shift, StoredRow.segment_shift] at segments
      exact mirrors.distinct r member r' member' segments

/-- A new row moves no other exactly when it comes to the key kept for it or no row waits below that. -/
theorem withRow_eq_insert_iff (fresh : ∀ r ∈ rows, r.segment ≠ n.segment) :
    withRow c rows n = insert n rows ↔ Store.orphanKey c n.table.id n.own = n.key ∨
      ∀ r ∈ rows, (Store.orphanKey c n.table.id n.own).isAbove r.key = false := by
  constructor
  · intro still
    by_contra moving
    obtain ⟨away, waiting⟩ := not_or.1 moving
    simp only [not_forall, Bool.not_eq_false] at waiting
    obtain ⟨r, member, above⟩ := waiting
    have inside := (RowKey.isAbove_iff_prefix.1 above).1
    have moved := (key_shift_ne_iff forest mirrors valid fresh member).2 ⟨inside, away⟩
    have stored : r.shift (Store.orphanKey c n.table.id n.own) n.key ∈ insert n rows :=
      still ▸ shift_mem_withRow member
    rcases stored with new | old
    · exact fresh r member (StoredRow.segment_shift.symm.trans (congrArg StoredRow.segment new))
    · exact moved (congrArg StoredRow.key
        (mirrors.distinct _ old r member StoredRow.segment_shift))
  · intro still
    rw [withRow_eq forest valid]
    refine congrArg (insert n) ((Set.image_congr fun r member => ?_).trans (Set.image_id rows))
    rcases still with home | none
    · rw [home]
      exact StoredRow.shift_self (mirrors.valid r member) valid.written
    · exact if_neg (by rw [none r member]; exact Bool.false_ne_true)

end Arrival

namespace Store

/-- A deletion that finds a new row takes it back, and the rows that it moved stay where they are. -/
theorem Holds.delete_new {s : Store} {rows : Set StoredRow} (holds : s.Holds rows) {t : Table}
    (known : s.catalog.table? t.id = some t) {key : RowKey} {values : List Value}
    (valid : (⟨t, key, values⟩ : StoredRow).Valid s.catalog)
    (fresh : ∀ r ∈ rows, r.segment ≠ .of t.id (primaryKey t values)) {m : ByteMap}
    (holds' : (s.withContents m).Holds (withRow s.catalog rows ⟨t, key, values⟩)) {v : Value}
    (same : v.keyForm.canonical = (primaryKey t values).canonical) :
    ∃ s', (s.withContents m).delete t.id v = .ok (true, s') ∧
      (s' = s ↔
        withRow s.catalog rows ⟨t, key, values⟩ = Insert.insert ⟨t, key, values⟩ rows) := by
  have form : (⟨t, key, values⟩ : StoredRow).segment = .of t.id v.keyForm :=
    congrArg (Segment.mk t.id) (Codec.Sortable.encode_eq_iff.2 same.symm)
  have stored : (⟨t, key, values⟩ : StoredRow) ∈ withRow s.catalog rows ⟨t, key, values⟩ :=
    mem_withRow_new holds.forest valid
  have new : (⟨t, key, values⟩ : StoredRow) ∉ rows := fun member => fresh _ member rfl
  obtain ⟨m', deleted, left⟩ := holds'.delete_stored known stored form
  refine ⟨_, deleted, ?_, ?_⟩
  · intro back
    rw [back] at left
    have rest := left.rows_eq.symm.trans holds.rows_eq
    have whole := Set.insert_sdiff_self_of_mem stored
    rw [rest] at whole
    exact whole.symm
  · intro still
    rw [still, Set.insert_sdiff_self_of_notMem new] at left
    have contents : m' = s.contents := left.mirrors.unique holds.mirrors
    rw [contents]
    rfl

/-- An accepted insertion gives new keys to the rows that waited for the new row, and to no others. -/
theorem insert_relabels {declarations : List Declaration} {c : Catalog}
    (accepted : Catalog.ofDeclarations declarations = .ok c) (plain : c.Plain) (config : EngineConfig)
    (batchSize : Nat) {changes : List Change} {s : Store}
    (reached : (fresh c config batchSize).run changes = s) {id : TableId} {values : List Value}
    {key : RowKey} {s' : Store} (inserted : s.insert id values = .ok (key, s')) :
    ∃ t, c.table? id = some t ∧
      Relabels (orphanKey c id (primaryKey t values)) ⟨t, key, values⟩ s.rows s'.rows := by
  have forest := Catalog.forest_of_declarations accepted
  obtain ⟨holds, _, catalog⟩ := holds_of_run forest plain config batchSize reached
  obtain ⟨t, m, known, rfl, _, valid, fresh, rfl, holds'⟩ := holds.of_insert inserted
  refine ⟨t, catalog ▸ known, ?_⟩
  rw [holds'.rows_eq, ← catalog]
  exact relabels_withRow holds.forest holds.mirrors valid fresh holds'.mirrors

theorem exists_of_first {α β ε : Type} {x : Except ε (α × β)} {a : α}
    (first : x.toOption.map Prod.fst = some a) : ∃ b, x = .ok (a, b) := by
  match x, first with
  | .ok (_, b), rfl => exact ⟨b, rfl⟩

/-- An order went and left an item where it was; another item of that order came later. -/
def leftovers : List Change :=
  [.insert ⟨2⟩ [.int 5, .int 1], .insert ⟨3⟩ [.int 7, .int 5], .delete ⟨2⟩ (.int 5),
    .insert ⟨3⟩ [.int 8, .int 5]]

/-- The order comes again with another customer, and the item that waits for it goes below it. -/
theorem insert_relabels_shop : Catalog.ofDeclarations shopDeclarations = .ok shop ∧ shop.Plain ∧
    ∃ s', ((fresh shop .standard 256).run leftovers).insert ⟨2⟩ [.int 5, .int 2] =
        .ok ((RowKey.empty.push ⟨1⟩ (.int 2)).push ⟨2⟩ (.int 5), s') ∧
      Relabels (orphanKey shop ⟨2⟩ (.int 5))
        ⟨shopOrder, (RowKey.empty.push ⟨1⟩ (.int 2)).push ⟨2⟩ (.int 5), [.int 5, .int 2]⟩
        ((fresh shop .standard 256).run leftovers).rows s'.rows := by
  obtain ⟨s', done⟩ : ∃ s', ((fresh shop .standard 256).run leftovers).insert ⟨2⟩ [.int 5, .int 2] =
      .ok ((RowKey.empty.push ⟨1⟩ (.int 2)).push ⟨2⟩ (.int 5), s') :=
    exists_of_first (by decide +kernel)
  obtain ⟨t, known, relabels⟩ := insert_relabels shop_accepted shop_plain .standard 256 rfl done
  obtain rfl : shopOrder = t := Option.some.inj known
  exact ⟨shop_accepted, shop_plain, s', done, relabels⟩

/-- Deleting a row that was just inserted, by any value that keys as its own, brings the store back
exactly when the insertion moved no other row; a deletion that finds no row leaves the store alone. -/
theorem delete_undoes_insert {declarations : List Declaration} {c : Catalog}
    (accepted : Catalog.ofDeclarations declarations = .ok c) (plain : c.Plain) (config : EngineConfig)
    (batchSize : Nat) {changes : List Change} {s : Store}
    (reached : (fresh c config batchSize).run changes = s) :
    (∀ id t values key s', c.table? id = some t → s.insert id values = .ok (key, s') →
      ∀ v : Value, v.keyForm.canonical = (primaryKey t values).canonical →
        ∃ s'', s'.delete id v = .ok (true, s'') ∧
          (s'' = s ↔ orphanKey c id (primaryKey t values) = key ∨
            ∀ r ∈ s.rows, (orphanKey c id (primaryKey t values)).isAbove r.key = false)) ∧
    (∀ id v s', s.delete id v = .ok (false, s') → s' = s) ∧
    ∀ id v, c.table? id = none →
      s.delete id v = .error (.usage (.unknownTable id)) ∧ s.after (.delete id v) = s := by
  have forest := Catalog.forest_of_declarations accepted
  obtain ⟨holds, _, catalog⟩ := holds_of_run forest plain config batchSize reached
  subst catalog
  refine ⟨fun id t values key s' known inserted v same => ?_, fun id v s' deleted => ?_,
    fun id v absent => ?_⟩
  · obtain ⟨t', m, known', rfl, _, valid, fresh, rfl, holds'⟩ := holds.of_insert inserted
    obtain rfl := Option.some.inj (known'.symm.trans known)
    obtain ⟨s'', taken, back⟩ := holds.delete_new known valid fresh holds' same
    exact ⟨s'', taken, back.trans (withRow_eq_insert_iff forest holds.mirrors valid fresh)⟩
  · rcases holds.delete_cases id v with ⟨error, refused⟩ | missing | ⟨r, _, m, done, _⟩
    · rw [refused] at deleted
      cases deleted
    · rw [missing] at deleted
      exact (Prod.mk.inj (Except.ok.inj deleted)).2.symm
    · rw [done] at deleted
      cases deleted
  · have refused : s.delete id v = .error (.usage (.unknownTable id)) := Holds.delete_unknown absent
    exact ⟨refused, by rw [Store.after, refused]⟩

/-- A customer comes with a float for its number and goes by the integer; the rows below it do not move. -/
theorem delete_undoes_insert_shop : Catalog.ofDeclarations shopDeclarations = .ok shop ∧ shop.Plain ∧
    shop.table? ⟨1⟩ = some shopCustomer ∧ shop.table? ⟨9⟩ = none ∧
    ∃ s', ((fresh shop .standard 256).run leftovers).insert ⟨1⟩
        [.float ⟨0x3ff0000000000000⟩, .text "ann"] = .ok (RowKey.empty.push ⟨1⟩ (.int 1), s') ∧
      s'.delete ⟨1⟩ (.int 1) = .ok (true, (fresh shop .standard 256).run leftovers) ∧
      ((fresh shop .standard 256).run leftovers).after (.delete ⟨9⟩ .null) =
        (fresh shop .standard 256).run leftovers := by
  have reached : (fresh shop .standard 256).run leftovers = _ := rfl
  obtain ⟨undone, _, unknown⟩ := delete_undoes_insert shop_accepted shop_plain .standard 256 reached
  obtain ⟨s', done⟩ : ∃ s', ((fresh shop .standard 256).run leftovers).insert ⟨1⟩
      [.float ⟨0x3ff0000000000000⟩, .text "ann"] = .ok (RowKey.empty.push ⟨1⟩ (.int 1), s') :=
    exists_of_first (by decide +kernel)
  obtain ⟨s'', deleted, back⟩ := undone _ _ _ _ _ rfl done (.int 1) (by decide +kernel)
  rw [back.2 (.inl (by decide +kernel))] at deleted
  exact ⟨shop_accepted, shop_plain, rfl, rfl, s', done, deleted, (unknown ⟨9⟩ .null rfl).2⟩

end Store

end Interleave
