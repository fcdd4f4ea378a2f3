import Mathlib.Data.List.Forall2
import Interleave.Proofs.Storage.CursorRuns
import Interleave.Store.Traversal

/-!
What a traversal yields. Batches leave no trace here either: a traversal goes over the entries between its
ends one by one, and counts no fewer ahead than there are.
-/

namespace Interleave.Traversal

open Storage (ByteMap Entry Bound Cursor)
open Storage.Layout (IsPlain)

/-- Whether certain entries are still to come. -/
structure Reads (s : Store) (t : Traversal) (entries : List Entry) : Prop where
  plain : IsPlain t.keyspace
  batches : 1 ≤ t.batchSize
  left : entries =
    t.batch ++ if t.hasMore then s.contents.between t.keyspace t.resume t.stop else []

variable {s : Store} {t : Traversal} {entries : List Entry}

/-- The entries of a keyspace within bounds, of which there are none without bounds. -/
def within (s : Store) (keyspace : String) : Option (Bound × Bound) → List Entry
  | some (low, high) => s.contents.between keyspace low high
  | none => []

theorem reads_between {keyspace : String} (plain : IsPlain keyspace) (batches : 1 ≤ s.batchSize)
    (kind : EntryKind) (bounds : Option (Bound × Bound)) :
    (between s keyspace kind bounds).Reads s (within s keyspace bounds) := by
  cases bounds with
  | some bounds => exact ⟨plain, batches, rfl⟩
  | none => exact ⟨plain, batches, rfl⟩

theorem kind_between (s : Store) (keyspace : String) (kind : EntryKind)
    (bounds : Option (Bound × Bound)) : (between s keyspace kind bounds).kind = kind := by
  cases bounds <;> rfl

theorem mem_within_iff {keyspace : String} {bounds : Option (Bound × Bound)} {e : Entry} :
    e ∈ within s keyspace bounds ↔ s.contents.getIn? keyspace e.1 = some e.2 ∧
      ∃ low high, bounds = some (low, high) ∧ low.below e.1 = true ∧ high.above e.1 = true := by
  cases bounds with
  | some bounds =>
    obtain ⟨low, high⟩ := bounds
    rw [within, ByteMap.mem_between_iff]
    simp
  | none => simp [within]

theorem within_sorted (keyspace : String) (bounds : Option (Bound × Bound)) :
    (within s keyspace bounds).Pairwise (·.1 < ·.1) := by
  cases bounds with
  | some bounds => exact s.contents.between_sorted keyspace bounds.1 bounds.2
  | none => exact .nil

theorem Reads.length_le (reads : t.Reads s entries) : entries.length ≤ t.ahead s := by
  have inside := s.contents.length_between_le t.keyspace t.resume t.stop
  have room : s.contents.size ≤ yieldBound s t.batchSize :=
    (Nat.le_succ _).trans (Nat.le_mul_of_pos_right _ reads.batches)
  rw [reads.left, List.length_append, ahead]
  split
  · omega
  · exact Nat.le_refl _

theorem resume_fill (t : Traversal) : (t.fill s).resume =
    match (t.fill s).batch.getLast? with
      | some last => .excluded last.1
      | none => t.resume :=
  rfl

/-- A new batch is the next entries, as many as it has room for. More may follow a full one. -/
theorem fill_spec (plain : IsPlain t.keyspace) (batches : 1 ≤ s.engine.cursorBatch) :
    (t.fill s).batch = (s.contents.between t.keyspace t.resume t.stop).take t.batchSize ∧
      ((t.fill s).hasMore = true ↔
        t.batchSize ≤ (s.contents.between t.keyspace t.resume t.stop).length) :=
  Cursor.take_spec (Cursor.sound_between s.contents t.resume t.stop batches plain) t.batchSize

/-- A batch that more may follow has a last entry, which the next batch goes on after. -/
theorem fill_hasMore (plain : IsPlain t.keyspace) (batches : 1 ≤ s.engine.cursorBatch)
    (size : 1 ≤ t.batchSize) (more : (t.fill s).hasMore = true) :
    ∃ last, (t.fill s).batch.getLast? = some last ∧ (t.fill s).resume = .excluded last.1 ∧
      s.contents.between t.keyspace (.excluded last.1) t.stop =
        (s.contents.between t.keyspace t.resume t.stop).drop t.batchSize := by
  obtain ⟨batch, going⟩ := fill_spec (s := s) plain batches
  have full := going.1 more
  have nonempty : (t.fill s).batch ≠ [] := by
    intro none
    have length := congrArg List.length (batch.symm.trans none)
    rw [List.length_take, List.length_nil] at length
    omega
  obtain ⟨last, found⟩ : ∃ last, (t.fill s).batch.getLast? = some last :=
    ⟨_, List.getLast?_eq_getLast_of_ne_nil nonempty⟩
  refine ⟨last, found, by rw [resume_fill, found], ?_⟩
  rw [batch] at found
  exact s.contents.between_excluded_getLast _ _ _ _ found

/-- A new batch takes the next entries, and is empty only when there are none. -/
theorem Reads.fill (reads : t.Reads s entries) (batches : 1 ≤ s.engine.cursorBatch)
    (empty : t.batch = []) (more : t.hasMore = true) :
    (t.fill s).Reads s entries ∧ ((t.fill s).batch = [] → entries = []) := by
  have all : entries = s.contents.between t.keyspace t.resume t.stop := by
    rw [reads.left, empty, more, if_pos rfl, List.nil_append]
  obtain ⟨batch, going⟩ := fill_spec (s := s) reads.plain batches
  rw [← all] at batch going
  have size := reads.batches
  refine ⟨⟨reads.plain, reads.batches, ?_⟩, fun none => ?_⟩
  · cases following : (t.fill s).hasMore with
    | true =>
      obtain ⟨last, _, resume, others⟩ := fill_hasMore reads.plain batches size following
      rw [if_pos rfl, batch, resume]
      show entries = _ ++ s.contents.between t.keyspace (.excluded last.1) t.stop
      rw [others, ← all, List.take_append_drop]
    | false =>
      have short : ¬t.batchSize ≤ entries.length := fun full =>
        Bool.false_ne_true (following.symm.trans (going.2 full))
      rw [batch, if_neg Bool.false_ne_true, List.append_nil, List.take_of_length_le (by omega)]
  · rw [batch, List.take_eq_nil_iff] at none
    exact none.resolve_left (by omega)

/-- Before it takes an entry a traversal has one in its batch, if there is one. -/
theorem Reads.ready (reads : t.Reads s entries) (batches : 1 ≤ s.engine.cursorBatch) :
    ∃ t', (if t.batch.isEmpty && t.hasMore then t.fill s else t) = t' ∧ t'.Reads s entries ∧
      (t'.batch = [] → entries = []) ∧ t'.kind = t.kind := by
  cases batch : t.batch with
  | nil =>
    cases more : t.hasMore with
    | true =>
      have filled := reads.fill batches batch more
      exact ⟨_, rfl, filled.1, filled.2, rfl⟩
    | false =>
      have none : entries = [] := by
        rw [reads.left, batch, more]
        rfl
      exact ⟨_, rfl, reads, fun _ => none, rfl⟩
  | cons e rest =>
    refine ⟨t, rfl, reads, fun empty => ?_, rfl⟩
    rw [batch] at empty
    cases empty

theorem Reads.advance_nil (reads : t.Reads s []) (batches : 1 ≤ s.engine.cursorBatch) :
    ∃ t', t.advance s = (.ok false, t') := by
  obtain ⟨t', ready, reads', _⟩ := reads.ready batches
  have spent : t'.batch = [] := (List.append_eq_nil_iff.1 reads'.left.symm).1
  refine ⟨{ t' with current := none }, ?_⟩
  simp only [advance, ready, spent]

/-- A traversal takes an entry if its key reads. -/
theorem take_of_reads (t : Traversal) {e : Entry} {values : List Value} {bytes : Bytes} {k : RowKey}
    (split : splitKey t.kind e.1 = (values, .ok bytes)) (key : RowKey.ofBytes bytes = .ok k) :
    t.take e = (.ok true, { t with columnValues := values, key := k, current := some e }) := by
  simp only [take, split, RowKey.reset, key]

/-- A traversal takes the next entry if its key reads. -/
theorem Reads.advance_cons {e : Entry} {rest : List Entry} (reads : t.Reads s (e :: rest))
    (batches : 1 ≤ s.engine.cursorBatch) {values : List Value} {bytes : Bytes} {k : RowKey}
    (split : splitKey t.kind e.1 = (values, .ok bytes)) (key : RowKey.ofBytes bytes = .ok k) :
    ∃ t', t.advance s = (.ok true, t') ∧ t'.Reads s rest ∧ t'.kind = t.kind ∧ t'.key = k ∧
      t'.columnValues = values ∧ t'.current = some e := by
  obtain ⟨t', ready, reads', waits, kind⟩ := reads.ready batches
  have left := reads'.left
  cases batch : t'.batch with
  | nil => exact absurd (waits batch) (List.cons_ne_nil e rest)
  | cons e' batch' =>
    rw [batch, List.cons_append, List.cons.injEq] at left
    obtain ⟨rfl, left⟩ := left
    refine ⟨{ t' with batch := batch', columnValues := values, key := k, current := some e }, ?_,
      ⟨reads'.plain, reads'.batches, left⟩, kind, rfl, rfl, rfl⟩
    simp only [advance, ready]
    rw [batch]
    exact take_of_reads { t' with batch := batch' } (kind.symm ▸ split) key

/-- Taking an entry changes nothing but what the traversal stands on. -/
theorem take_spec (t : Traversal) (e : Entry) : ∃ answer values key current,
    t.take e = (answer, { t with columnValues := values, key, current }) ∧ answer ≠ .ok false := by
  simp only [take]
  split
  · exact ⟨_, _, _, _, rfl, by simp⟩
  · split
    · exact ⟨_, _, _, _, rfl, by simp⟩
    · exact ⟨_, _, _, _, rfl, by simp⟩

/-- Whether a traversal that takes an entry stands on a row. -/
def Shows (s : Store) (kind : EntryKind) (e : Entry) (row : Row) : Prop :=
  ∃ values bytes key, splitKey kind e.1 = (values, .ok bytes) ∧ RowKey.ofBytes bytes = .ok key ∧
    ∀ t : Traversal, t.kind = kind → t.key = key → t.columnValues = values → t.current = some e →
      t.currentRow s = .ok row

/-- A traversal stands on the row of its key. -/
theorem currentKey?_of_currentRow {row : Row} (stands : t.currentRow s = .ok row) :
    t.currentKey? = row.key := by
  unfold currentRow at stands
  rw [currentKey?]
  split at stands
  · cases stands
  next entry current =>
  rw [current]
  split at stands
  · obtain rfl := Except.ok.inj stands
    rfl
  split at stands
  · cases stands
  split at stands
  · cases stands
  split at stands
  · cases stands
  · obtain rfl := Except.ok.inj stands
    rfl

/-- Whether a traversal stands on certain rows one after another and then ends, and counts far enough
ahead. -/
inductive Yields (s : Store) : Traversal → List Row → Prop where
  | done {t t' : Traversal} (ended : t.advance s = (.ok false, t')) : Yields s t []
  | more {t t' : Traversal} {row : Row} {rows : List Row} (next : t.advance s = (.ok true, t'))
      (stands : t'.currentRow s = .ok row) (ahead : rows.length < t.ahead s)
      (others : Yields s t' rows) :
      Yields s t (row :: rows)

/-- A traversal stands on the rows that its entries show. -/
theorem Reads.yields (reads : t.Reads s entries) (batches : 1 ≤ s.engine.cursorBatch)
    {kind : EntryKind} (same : t.kind = kind) {rows : List Row}
    (shows : List.Forall₂ (Shows s kind) entries rows) : t.Yields s rows := by
  induction shows generalizing t with
  | nil =>
    obtain ⟨t', ended⟩ := reads.advance_nil batches
    exact .done ended
  | cons first others ih =>
    obtain ⟨values, bytes, key, split, read, stands⟩ := first
    obtain ⟨t', next, reads', kind', key', values', current⟩ :=
      reads.advance_cons batches (same ▸ split) read
    have enough := reads.length_le
    rw [List.length_cons, others.length_eq] at enough
    exact .more next (stands t' (kind'.trans same) key' values' current) enough
      (ih reads' (kind'.trans same))

theorem Yields.length_le {rows : List Row} (yields : t.Yields s rows) : rows.length ≤ t.ahead s := by
  cases yields with
  | done => exact Nat.zero_le _
  | more _ _ ahead _ => exact ahead

theorem Yields.collect {rows : List Row} (yields : t.Yields s rows) {fuel : Nat}
    (enough : rows.length < fuel) : t.collect s fuel = (rows, none) := by
  induction yields generalizing fuel with
  | done ended =>
    obtain ⟨fuel, rfl⟩ := Nat.exists_eq_add_of_lt enough
    simp only [Traversal.collect, ended]
  | more next stands _ _ ih =>
    obtain ⟨fuel, rfl⟩ := Nat.exists_eq_add_of_lt enough
    rw [List.length_cons] at enough ⊢
    simp only [Traversal.collect, next, stands, ih (Nat.lt_of_succ_lt_succ enough)]

/-- All rows of a traversal are those that it stands on one after another. -/
theorem Yields.rows_eq {rows : List Row} (yields : t.Yields s rows) : t.rows s = (rows, none) :=
  yields.collect (Nat.lt_succ_of_le yields.length_le)

end Interleave.Traversal
