import Mathlib.Data.List.Perm.Subperm
import Interleave.Proofs.Store.Mirror
import Interleave.Proofs.Store.Traversals

/-!
How long traversals last. A traversal that ends never starts two batches after the same key, or it would
go on for ever; so it yields no more than it looks ahead, whatever names its keyspace goes by. Where names
are plain every traversal ends.
-/

namespace Interleave

open Storage (ByteMap Bound Entry Cursor)

/-- The way of a partial function from a place to where it has no value. -/
inductive Course {α : Type} (next? : α → Option α) : α → List α → Prop where
  | stop {a : α} (last : next? a = none) : Course next? a []
  | step {a b : α} {rest : List α} (next : next? a = some b) (others : Course next? b rest) :
      Course next? a (b :: rest)

namespace Course

variable {α : Type} {next? : α → Option α} {a b : α} {way : List α}

theorem unique (course : Course next? a way) {way' : List α} (course' : Course next? a way') :
    way = way' := by
  induction course generalizing way' with
  | stop last =>
    cases course' with
    | stop _ => rfl
    | step next _ => cases last.symm.trans next
  | step next _ ih =>
    cases course' with
    | stop last => cases next.symm.trans last
    | step next' others =>
      obtain rfl := Option.some.inj (next.symm.trans next')
      rw [ih others]

theorem of_mem (course : Course next? a way) (member : b ∈ way) :
    ∃ left, Course next? b left ∧ left.length < way.length := by
  induction course with
  | stop _ => cases member
  | step _ others ih =>
    rcases List.mem_cons.1 member with rfl | member
    · exact ⟨_, others, Nat.lt_succ_self _⟩
    · obtain ⟨left, course, shorter⟩ := ih member
      exact ⟨left, course, Nat.lt_succ_of_lt shorter⟩

/-- No place comes twice, as the way from there would be a part of itself. -/
theorem nodup (course : Course next? a way) : way.Nodup := by
  induction course with
  | stop _ => exact List.nodup_nil
  | step _ others ih =>
    refine List.nodup_cons.2 ⟨fun member => ?_, ih⟩
    obtain ⟨left, again, shorter⟩ := others.of_mem member
    rw [again.unique others] at shorter
    exact Nat.lt_irrefl _ shorter

end Course

namespace Storage

/-- The logical keys of all entries, whatever their tables. -/
def ByteMap.logicalKeys (m : ByteMap) : List Bytes :=
  m.entries.filterMap fun e => (Layout.decodeKey? e.1).map (·.2)

theorem ByteMap.mem_logicalKeys_of_rangeIn {m : ByteMap} {table : String} {low high : Bound}
    {limit : Nat} {e : Entry} (member : e ∈ m.rangeIn table low high limit) :
    e.1 ∈ m.logicalKeys := by
  simp only [rangeIn] at member
  split at member
  · cases member
  · rw [readBelow_eq_take] at member
    obtain ⟨p, within, decoded⟩ := List.mem_filterMap.1 (List.mem_of_mem_take member)
    have stored : p ∈ m.entries :=
      (List.dropWhile_suffix _).subset ((List.takeWhile_prefix _).subset within)
    obtain ⟨⟨table, key⟩, split, rfl⟩ := Option.map_eq_some_iff.1 decoded
    exact List.mem_filterMap.2 ⟨p, stored, by rw [split]; rfl⟩

namespace Cursor

theorem length_take_le (c : Cursor) (count : Nat) : (c.take count).1.length ≤ count := by
  induction count generalizing c with
  | zero => exact Nat.le_refl 0
  | succ count ih =>
    rw [take]
    cases c.next.current? with
    | none => exact Nat.zero_le _
    | some entry => exact Nat.succ_le_succ (ih c.next)

/-- What a cursor holds is in its batch or comes from its contents. -/
theorem next_holds {c : Cursor} (holds : ∀ e ∈ c.batch, e.1 ∈ c.contents.logicalKeys) :
    c.next.contents = c.contents ∧ ∀ e ∈ c.next.batch, e.1 ∈ c.contents.logicalKeys := by
  have loaded (low : Bound) : (c.loadFrom low).contents = c.contents ∧
      ∀ e ∈ (c.loadFrom low).batch, e.1 ∈ c.contents.logicalKeys :=
    ⟨rfl, fun e member => ByteMap.mem_logicalKeys_of_rangeIn member⟩
  unfold next
  split
  · exact loaded c.low
  split
  · exact ⟨rfl, holds⟩
  split
  · exact ⟨rfl, holds⟩
  split
  · exact ⟨rfl, holds⟩
  split
  · exact loaded _
  · exact ⟨rfl, holds⟩

theorem mem_logicalKeys_of_take {c : Cursor} (holds : ∀ e ∈ c.batch, e.1 ∈ c.contents.logicalKeys)
    {count : Nat} {e : Entry} (member : e ∈ (c.take count).1) : e.1 ∈ c.contents.logicalKeys := by
  induction count generalizing c with
  | zero => cases member
  | succ count ih =>
    obtain ⟨same, holds'⟩ := next_holds holds
    rw [take] at member
    cases current : c.next.current? with
    | none =>
      rw [current] at member
      cases member
    | some entry =>
      rw [current] at member
      rcases List.mem_cons.1 member with rfl | member
      · obtain ⟨p, _, found⟩ := Option.bind_eq_some_iff.1 current
        exact holds' e (List.mem_of_getElem? found)
      · rw [← same] at holds' ⊢
        exact ih holds' member

end Cursor

end Storage

namespace Traversal

variable {s : Store} {t : Traversal} {n : Nat}

/-- A traversal without entries in its batch is over, or it starts a batch if there may be more. -/
theorem advance_cases (s : Store) (t : Traversal) :
    ∃ ready, (ready = t ∧ (t.batch = [] → t.hasMore = false) ∨
        ready = t.fill s ∧ t.batch = [] ∧ t.hasMore = true) ∧
      (ready.batch = [] ∧ t.advance s = (.ok false, { ready with current := none }) ∨
        ∃ e batch answer values key current, ready.batch = e :: batch ∧ answer ≠ .ok false ∧
          t.advance s = (answer, { ready with batch, columnValues := values, key, current })) := by
  have step (ready : Traversal)
      (same : (if t.batch.isEmpty && t.hasMore then t.fill s else t) = ready) :
      ready.batch = [] ∧ t.advance s = (.ok false, { ready with current := none }) ∨
        ∃ e batch answer values key current, ready.batch = e :: batch ∧ answer ≠ .ok false ∧
          t.advance s = (answer, { ready with batch, columnValues := values, key, current }) := by
    simp only [advance, same]
    cases held : ready.batch with
    | nil => exact .inl ⟨rfl, rfl⟩
    | cons e batch =>
      obtain ⟨answer, values, key, current, taken, going⟩ := take_spec { ready with batch } e
      exact .inr ⟨e, batch, answer, values, key, current, rfl, going, taken⟩
  cases batch : t.batch with
  | nil =>
    cases more : t.hasMore with
    | false => exact ⟨t, .inl ⟨rfl, fun _ => rfl⟩, step t (by rw [batch, more]; rfl)⟩
    | true => exact ⟨t.fill s, .inr ⟨rfl, rfl, rfl⟩, step _ (by rw [batch, more]; rfl)⟩
  | cons e rest =>
    exact ⟨t, .inl ⟨rfl, fun none => absurd none (List.cons_ne_nil e rest)⟩,
      step t (by rw [batch]; rfl)⟩

/-- Whether a traversal answers a certain number of times, also with errors, before it is over. -/
inductive Lasts (s : Store) : Traversal → Nat → Prop where
  | done {t t' : Traversal} (ended : t.advance s = (.ok false, t')) : Lasts s t 0
  | more {t t' : Traversal} {answer : Except QueryError Bool} {n : Nat}
      (next : t.advance s = (answer, t')) (going : answer ≠ .ok false) (others : Lasts s t' n) :
      Lasts s t (n + 1)

def Ends (s : Store) (t : Traversal) : Prop := ∃ n, t.Lasts s n

/-- Where the batch after the one from `low` on starts, if there is one. -/
def nextStart? (s : Store) (t : Traversal) (low : Bound) : Option Bound :=
  let filled := fill s { t with resume := low }
  if filled.hasMore then filled.batch.getLast?.map fun last => .excluded last.1 else none

theorem length_fill_le (s : Store) (t : Traversal) : (t.fill s).batch.length ≤ t.batchSize :=
  Cursor.length_take_le _ _

theorem nextStart?_fill (s : Store) (t : Traversal) :
    nextStart? s t t.resume =
      if (t.fill s).hasMore = true ∧ (t.fill s).batch ≠ [] then some (t.fill s).resume else none := by
  rw [nextStart?, resume_fill]
  cases more : (t.fill s).hasMore with
  | false => simp
  | true =>
    cases last : (t.fill s).batch.getLast? with
    | none => simp [List.getLast?_eq_none_iff.1 last]
    | some e => simp [List.ne_nil_of_mem (List.mem_of_getLast? last)]

/-- A traversal that ends gets by with the batches on its way. -/
theorem Lasts.course (lasts : t.Lasts s n) :
    (t.hasMore = false → n ≤ t.batch.length) ∧
    (t.hasMore = true → ∃ way, Course (nextStart? s t) t.resume way ∧
      n ≤ t.batch.length + (way.length + 1) * t.batchSize) := by
  induction lasts with
  | @done t t' ended =>
    refine ⟨fun _ => Nat.zero_le _, fun more => ?_⟩
    obtain ⟨ready, begun, ⟨none, _⟩ | ⟨e, batch, answer, _, _, _, _, going, next⟩⟩ := advance_cases s t
    · rcases begun with ⟨rfl, spent⟩ | ⟨rfl, _⟩
      · cases more.symm.trans (spent none)
      · have last : nextStart? s t t.resume = Option.none := by
          rw [nextStart?_fill, if_neg fun more => more.2 none]
        exact ⟨[], .stop last, Nat.zero_le _⟩
    · rw [ended] at next
      exact absurd (congrArg Prod.fst next).symm going
  | @more t t' answer n next going others ih =>
    obtain ⟨ready, begun, ⟨_, ended⟩ | ⟨e, batch, answer, values, key, current, held, _, next'⟩⟩ :=
      advance_cases s t
    · rw [next] at ended
      exact absurd (congrArg Prod.fst ended) going
    rw [next, Prod.mk.injEq] at next'
    obtain ⟨_, rfl⟩ := next'
    have entries : ready.batch.length = batch.length + 1 := by rw [held, List.length_cons]
    rcases begun with ⟨rfl, _⟩ | ⟨rfl, spent, more⟩
    · refine ⟨fun last => ?_, fun more => ?_⟩
      · have others : n ≤ batch.length := ih.1 last
        omega
      · obtain ⟨way, course, others⟩ := ih.2 more
        have others : n ≤ batch.length + (way.length + 1) * ready.batchSize := others
        exact ⟨way, course, by omega⟩
    · have room := length_fill_le s t
      refine ⟨fun last => ?_, fun _ => ?_⟩
      · rw [more] at last
        cases last
      cases going : (t.fill s).hasMore with
      | false =>
        have last : nextStart? s t t.resume = none := by
          rw [nextStart?_fill, going, if_neg fun both => Bool.false_ne_true both.1]
        have others : n ≤ batch.length := ih.1 going
        refine ⟨[], .stop last, ?_⟩
        rw [List.length_nil]
        omega
      | true =>
        have further : nextStart? s t t.resume = some (t.fill s).resume := by
          rw [nextStart?_fill, if_pos ⟨going, held ▸ List.cons_ne_nil _ _⟩]
        obtain ⟨way, course, others⟩ := ih.2 going
        have others : n ≤ batch.length + (way.length + 1) * t.batchSize := others
        refine ⟨_ :: way, .step further course, ?_⟩
        have whole := Nat.add_one_mul (way.length + 1) t.batchSize
        rw [List.length_cons]
        omega

/-- Every batch but the first starts after a key of the contents. -/
theorem mem_logicalKeys_of_course {low : Bound} {way : List Bound}
    (course : Course (nextStart? s t) low way) :
    way ⊆ s.contents.logicalKeys.map .excluded := by
  induction course with
  | stop _ => exact List.nil_subset _
  | @step low next rest found _ ih =>
    refine List.cons_subset.2 ⟨?_, ih⟩
    simp only [nextStart?] at found
    split at found
    · obtain ⟨last, taken, rfl⟩ := Option.map_eq_some_iff.1 found
      have stored : last.1 ∈ s.contents.logicalKeys :=
        Cursor.mem_logicalKeys_of_take (fun _ held => absurd held List.not_mem_nil)
          (List.mem_of_getLast? taken)
      exact List.mem_map_of_mem stored
    · cases found

/-- A traversal that ends looks far enough ahead. -/
theorem Lasts.le_ahead (lasts : t.Lasts s n) : n ≤ t.ahead s := by
  obtain ⟨short, long⟩ := lasts.course
  rw [ahead]
  cases more : t.hasMore with
  | false => exact short more
  | true =>
    obtain ⟨way, course, enough⟩ := long more
    have few : way.length ≤ s.contents.size :=
      calc way.length
        _ ≤ (s.contents.logicalKeys.map Bound.excluded).length :=
          (course.nodup.subperm (mem_logicalKeys_of_course course)).length_le
        _ = s.contents.logicalKeys.length := List.length_map _
        _ ≤ s.contents.size := List.length_filterMap_le _ _
    refine enough.trans (Nat.add_le_add_left ?_ _)
    exact Nat.mul_le_mul_right _ (Nat.succ_le_succ few)

/-- A traversal of a plain keyspace lasts as long as there are entries. -/
theorem Reads.lasts {entries : List Entry} (reads : t.Reads s entries)
    (batches : 1 ≤ s.engine.cursorBatch) : t.Lasts s entries.length := by
  induction entries generalizing t with
  | nil =>
    obtain ⟨t', ended⟩ := reads.advance_nil batches
    exact .done ended
  | cons e rest ih =>
    obtain ⟨ready, same, reads', waits, _⟩ := reads.ready batches
    have left := reads'.left
    cases held : ready.batch with
    | nil => exact absurd (waits held) (List.cons_ne_nil e rest)
    | cons e' batch =>
      rw [held, List.cons_append, List.cons.injEq] at left
      obtain ⟨answer, values, key, current, taken, going⟩ := take_spec { ready with batch } e'
      have next : t.advance s =
          (answer, { ready with batch, columnValues := values, key, current }) := by
        simp only [advance, same]
        rw [held]
        exact taken
      exact .more next going (ih ⟨reads'.plain, reads'.batches, left.2⟩)

end Traversal

namespace Store

/-- Whether every traversal of a group, of a branch or of an index comes to an end. -/
structure TraversalsEnd (s : Store) : Prop where
  group {id : GroupId} {t : Traversal} (begun : s.traverseGroup id = .ok t) : t.Ends s
  branch {id : GroupId} {root : RowKey} {t : Traversal} (begun : s.traverseBranch id root = .ok t) :
    t.Ends s
  index {id : IndexId} {range : IndexRange} {t : Traversal}
    (begun : s.traverseIndex id range = .ok t) : t.Ends s

theorem traversalsEnd_of_plain {s : Store} (plain : s.catalog.Plain) (batches : 1 ≤ s.batchSize)
    (batches' : 1 ≤ s.engine.cursorBatch) : s.TraversalsEnd := by
  have ends {keyspace : String} (named : Storage.Layout.IsPlain keyspace) (kind : EntryKind)
      (bounds : Option (Bound × Bound)) : (Traversal.between s keyspace kind bounds).Ends s :=
    ⟨_, (Traversal.reads_between named batches kind bounds).lasts batches'⟩
  have named {id : GroupId} {g : Group} (found : s.group id = .ok g) :
      Storage.Layout.IsPlain (groupSpace g.name) := by
    rw [Store.group] at found
    split at found
    next g' known =>
      obtain rfl := Except.ok.inj found
      exact Keyspace.group_plain (plain.groups g' (Catalog.numbered?_mem known))
    · cases found
  refine ⟨fun begun => ?_, fun begun => ?_, fun begun => ?_⟩
  · obtain ⟨g, found, rfl⟩ := map_eq_ok begun
    exact ends (named found) _ _
  · obtain ⟨g, found, rfl⟩ := map_eq_ok begun
    exact ends (named found) _ _
  · rw [traverseIndex] at begun
    split at begun
    next i rowType known _ =>
      obtain rfl := Except.ok.inj begun
      exact ends (Keyspace.index_plain (plain.indexes i (Catalog.numbered?_mem known))) _ _
    · cases begun

end Store

end Interleave
