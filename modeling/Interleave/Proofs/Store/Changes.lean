import Mathlib.Data.Set.Image
import Interleave.Proofs.Storage.CursorRuns
import Interleave.Proofs.Store.Seats

/-!
What a change of the store does to its rows. A new row takes its place and draws the rows below the
place kept for it along; a removed row goes without any other. The rows that move change their keys in
their group, under their primary keys and in every index.
-/

namespace Interleave

open Storage (ByteMap Entry Bound Cursor)
open Storage.Layout (encodeKey IsPlain)

/-- The key with its part after `source` put after `target`. -/
def RowKey.rebase (source target k : RowKey) : RowKey :=
  ⟨target.segments ++ k.segments.drop source.segments.length⟩

theorem RowKey.rebase_push {source k : RowKey} (inside : source.segments <+: k.segments)
    (target : RowKey) (table : TableId) (value : Value) :
    rebase source target (k.push table value) = (rebase source target k).push table value := by
  rw [rebase, segments_push, List.drop_append_of_le_length inside.length_le, ← List.append_assoc]
  rfl

theorem RowKey.rebase_self (k target : RowKey) : rebase k target k = target := by
  rw [rebase, List.drop_length, List.append_nil]

namespace StoredRow

/-- The row with its key taken from below `source` to below `target`. -/
def relocate (source target : RowKey) (r : StoredRow) : StoredRow :=
  { r with key := RowKey.rebase source target r.key }

/-- A row below `source` goes below `target`, and any other row stays. -/
def shift (source target : RowKey) (r : StoredRow) : StoredRow :=
  if source.isAbove r.key then r.relocate source target else r

variable {c : Catalog} {source target : RowKey} {r : StoredRow}

@[simp] theorem table_shift : (r.shift source target).table = r.table := by
  unfold shift
  split <;> rfl

@[simp] theorem values_shift : (r.shift source target).values = r.values := by
  unfold shift
  split <;> rfl

theorem shift_eq (source target : RowKey) (r : StoredRow) :
    r.shift source target = ⟨r.table, (r.shift source target).key, r.values⟩ := by
  unfold shift
  split <;> rfl

theorem segment_shift : (r.shift source target).segment = r.segment := by
  rw [segment, own, table_shift, values_shift]
  rfl

section Relocate

variable (valid : r.Valid c) (written : source.IsWritten)
include valid written

theorem bytes_relocate (below : source.bytes <+: r.key.bytes) :
    (r.relocate source target).key.bytes =
      target.bytes ++ r.key.bytes.drop source.bytes.length := by
  obtain ⟨rest, split⟩ := (RowKey.bytes_prefix_iff written valid.written).1 below
  have whole : r.key.bytes = source.bytes ++ (⟨rest⟩ : RowKey).bytes := by
    rw [← RowKey.bytes_append, split]
  have moved : (r.relocate source target).key = ⟨target.segments ++ rest⟩ := by
    rw [relocate, RowKey.rebase, ← split, List.drop_left]
  rw [moved, whole, List.drop_left, RowKey.bytes_append]

theorem Valid.relocate (written' : target.IsWritten)
    (same : source.segments.map (·.table) = target.segments.map (·.table))
    (below : source.isAbove r.key = true) : (r.relocate source target).Valid c := by
  obtain ⟨rest, nonempty, split⟩ := (RowKey.isAbove_iff_segments written valid.written).1 below
  have moved : (r.relocate source target).key.segments = target.segments ++ rest := by
    simp [StoredRow.relocate, RowKey.rebase, split]
  have path := valid.path
  have last := valid.last
  refine { valid with written := ?_, path := ?_, last := ?_ }
  · intro s member
    rw [moved, List.mem_append] at member
    rcases member with member | member
    · exact written' s member
    · exact valid.written s (split ▸ List.mem_append_right _ member)
  · rw [split, List.map_append] at path
    rw [moved, List.map_append, ← same, path]
    rfl
  · rw [split, List.getLast?_append_of_ne_nil _ nonempty] at last
    rw [moved, List.getLast?_append_of_ne_nil _ nonempty, last]
    rfl

end Relocate

end StoredRow

namespace Storage.ByteMap

/-- What is written over does not matter. -/
theorem putAll_congr {entries : List Entry}
    (agree : ∀ e ∈ entries, ∀ e' ∈ entries, e.1 = e'.1 → e = e') {m m' : ByteMap}
    (same : ∀ key, (∀ e ∈ entries, key ≠ e.1) → m.get? key = m'.get? key) :
    m.putAll entries = m'.putAll entries := by
  refine ext_get? fun key => Option.ext fun value => ?_
  rw [get?_putAll agree, get?_putAll agree]
  refine or_congr_right (and_congr_right fun apart => ?_)
  rw [same key apart]

end Storage.ByteMap

namespace Store

variable {c : Catalog} {m : ByteMap} {rows : Set StoredRow}

def indexKeys (c : Catalog) (r : StoredRow) : List Bytes :=
  (c.indexesOn r.table.id).map fun i => encodeKey (indexSpace i.name) (indexKey i r.values r.key)

theorem keys_entries (r : StoredRow) : (r.entries c).map (·.1) =
    encodeKey (groupSpace (c.groupName r.table)) r.key.bytes ::
      encodeKey (primarySpace r.table.name) (Codec.Sortable.encode r.own) :: indexKeys c r := by
  simp only [StoredRow.entries, StoredRow.places, indexKeys, List.map_cons, List.map_map]
  rfl

theorem eraseIndexEntries_eq (m : ByteMap) (r : StoredRow) :
    eraseIndexEntries c m r.table r.key r.values = m.eraseAll (indexKeys c r) := by
  rw [eraseIndexEntries, ByteMap.eraseAll, indexKeys, List.foldl_map]
  rfl

section Writing

variable (forest : c.Forest)
include forest

theorem writeRow_eq {r : StoredRow} (valid : r.Valid c) (m : ByteMap) :
    writeRow c (groupSpace (c.groupName r.table)) m r.table r.key r.values =
      .ok (m.putAll (r.entries c)) := by
  have inside : r.table.primaryKey < r.values.length := by
    rw [valid.counted]
    exact (forest.fits r.table valid.known).primaryKey
  have own : r.own = (r.values[r.table.primaryKey]).keyForm := by
    simp [StoredRow.own, primaryKey, List.getElem?_eq_getElem inside]
  simp only [writeRow, valid.encodable, Except.map, List.getElem?_eq_getElem inside, ByteMap.putAll,
    StoredRow.entries, StoredRow.places, List.map_cons, List.map_map, List.foldl_cons,
    List.foldl_map, own]
  rfl

end Writing

end Store

namespace Mirrors

variable {c : Catalog} {m : ByteMap} {rows : Set StoredRow} {source target : RowKey}

section Moving

variable (forest : c.Forest) (plain : c.Plain) (written : source.IsWritten)
  (written' : target.IsWritten)
  (same : source.segments.map (·.table) = target.segments.map (·.table))
include forest plain written written' same

/-- Moving a row replaces it. Its place under its primary key is written over, all others are left. -/
theorem move (mirrors : Mirrors c m rows) {r : StoredRow} (member : r ∈ rows)
    (below : source.isAbove r.key = true) :
    ∃ m', Store.moveRow c (Store.groupSpace (c.groupName r.table)) source target m
      (r.key.bytes, r.body) = .ok m' ∧
      Mirrors c m' (insert (r.relocate source target) (rows \ {r})) := by
  have valid := mirrors.valid r member
  have valid' := valid.relocate written written' same below
  obtain ⟨tail, _, whole⟩ := (RowKey.isAbove_iff source r.key).1 below
  have place : (r.relocate source target).key.bytes =
      target.bytes ++ r.key.bytes.drop source.bytes.length :=
    StoredRow.bytes_relocate valid written ⟨tail, whole.symm⟩
  have last : r.key.lastTable? = some r.table.id := by
    rw [RowKey.lastTable?, valid.last]
    rfl
  have agree := StoredRow.entries_agree forest plain valid'
  have erased : Mirrors c (m.eraseAll ((r.entries c).map (·.1))) (rows \ {r}) :=
    mirrors.remove forest plain member fun key => List.mem_map
  have fresh : ∀ r' ∈ rows \ {r}, r'.segment ≠ (r.relocate source target).segment :=
    fun r' inside equal => inside.2 (mirrors.distinct r' inside.1 r member equal)
  refine ⟨_, ?_, erased.put forest plain valid' fresh⟩
  simp only [Store.moveRow, ← place, RowKey.ofBytes_bytes valid.written,
    RowKey.ofBytes_bytes valid'.written, bind, Except.bind, last, Option.bind_some,
    forest.table?_id valid.known, Codec.Body.decodeRow_encodeRow valid.encodable,
    Store.eraseIndexEntries_eq]
  refine (Store.writeRow_eq forest valid' _).trans
    (congrArg Except.ok (ByteMap.putAll_congr agree fun key apart => ?_))
  have primary : key ≠ encodeKey (Store.primarySpace r.table.name) (Codec.Sortable.encode r.own) :=
    apart (_, (r.relocate source target).key.bytes) (List.mem_cons_of_mem _ List.mem_cons_self)
  refine Option.ext fun value => ?_
  show ((m.eraseAll [encodeKey (Store.groupSpace (c.groupName r.table)) r.key.bytes]).eraseAll
    (Store.indexKeys c r)).get? key = some value ↔ _
  rw [ByteMap.get?_eraseAll, ByteMap.get?_eraseAll, ByteMap.get?_eraseAll, Store.keys_entries]
  simp only [List.mem_cons, List.not_mem_nil, or_false, not_or, primary,
    not_false_eq_true, true_and]
  exact and_left_comm.trans and_assoc.symm

end Moving

/-- The rows once those with given keys have moved. -/
def moved (source target : RowKey) (keys : List Bytes) (r : StoredRow) : StoredRow :=
  if r.key.bytes ∈ keys then r.relocate source target else r

theorem image_moved_nil (source target : RowKey) (rows : Set StoredRow) :
    moved source target [] '' rows = rows := by
  have same : moved source target [] = id := funext fun r => if_neg List.not_mem_nil
  rw [same, Set.image_id]

theorem segment_moved (source target : RowKey) (keys : List Bytes) (r : StoredRow) :
    (moved source target keys r).segment = r.segment := by
  unfold moved
  split <;> rfl

/-- Replacing a row that has not moved moves its key with those before. -/
theorem insert_relocate (valid : ∀ r ∈ rows, r.Valid c)
    (distinct : ∀ r ∈ rows, ∀ r' ∈ rows, r.segment = r'.segment → r = r') {keys : List Bytes}
    {r : StoredRow} (member : r ∈ rows) (waits : r.key.bytes ∉ keys) :
    insert (r.relocate source target) (moved source target keys '' rows \ {r}) =
      moved source target (keys ++ [r.key.bytes]) '' rows := by
  have stays : moved source target keys r = r := if_neg waits
  have goes : moved source target (keys ++ [r.key.bytes]) r = r.relocate source target :=
    if_pos (by simp)
  have others : ∀ r' ∈ rows, r' ≠ r →
      moved source target (keys ++ [r.key.bytes]) r' = moved source target keys r' := by
    intro r' member' different
    have apart : r'.key.bytes ≠ r.key.bytes := fun same =>
      different (distinct r' member' r member
        ((valid r' member').segment_eq_of_key (valid r member) same))
    simp [moved, apart]
  ext x
  constructor
  · rintro (rfl | ⟨⟨r', member', rfl⟩, different⟩)
    · exact ⟨r, member, goes⟩
    · have apart : r' ≠ r := by
        rintro rfl
        exact different stays
      exact ⟨r', member', others r' member' apart⟩
  · rintro ⟨r', member', rfl⟩
    by_cases same : r' = r
    · rw [same, goes]
      exact Set.mem_insert _ _
    · rw [others r' member' same]
      refine Set.mem_insert_of_mem _ ⟨⟨r', member', rfl⟩, fun equal => same ?_⟩
      have segments := segment_moved source target keys r'
      rw [equal] at segments
      exact distinct r' member' r member segments.symm

section Adoption

variable (forest : c.Forest) (plain : c.Plain)
include forest plain

/-- Moving rows one after another moves each of them once. -/
theorem moveAll (written : source.IsWritten) (written' : target.IsWritten)
    (same : source.segments.map (·.table) = target.segments.map (·.table)) {space : String}
    (valid : ∀ r ∈ rows, r.Valid c)
    (distinct : ∀ r ∈ rows, ∀ r' ∈ rows, r.segment = r'.segment → r = r') {waiting : List Entry}
    {done : List Bytes} (mirrors : Mirrors c m (moved source target done '' rows))
    (each : ∀ e ∈ waiting, ∃ r ∈ rows, e = (r.key.bytes, r.body) ∧ source.isAbove r.key = true ∧
      space = Store.groupSpace (c.groupName r.table))
    (once : (done ++ waiting.map (·.1)).Nodup) :
    ∃ m', waiting.foldlM (Store.moveRow c space source target) m = .ok m' ∧
      Mirrors c m' (moved source target (done ++ waiting.map (·.1)) '' rows) := by
  induction waiting generalizing m done with
  | nil => exact ⟨m, rfl, by simpa using mirrors⟩
  | cons e rest ih =>
    obtain ⟨r, member, rfl, below, rfl⟩ := each e List.mem_cons_self
    have split : done ++ ((r.key.bytes, r.body) :: rest).map (·.1) =
        (done ++ [r.key.bytes]) ++ rest.map (·.1) := by
      simp
    rw [split] at once ⊢
    have waits : r.key.bytes ∉ done := by
      have first := (List.nodup_append.1 once).1
      exact fun here => (List.nodup_append.1 first).2.2 _ here _ (List.mem_singleton_self _) rfl
    have here : r ∈ moved source target done '' rows := ⟨r, member, if_neg waits⟩
    obtain ⟨next, one, mirrors'⟩ := move forest plain written written' same mirrors here below
    rw [insert_relocate valid distinct member waits] at mirrors'
    obtain ⟨last, others, all⟩ :=
      ih mirrors' (fun e inside => each e (List.mem_cons_of_mem _ inside)) once
    exact ⟨last, by rw [List.foldlM_cons, one]; exact others, all⟩

end Adoption

end Mirrors

end Interleave
