import Mathlib.Data.List.Basic
import Interleave.Storage.Cursor
import Interleave.Proofs.Storage.Ranges

/-!
What a cursor yields. Batches leave no trace: a cursor over a logical table yields the table's entries
between its ends one by one, whatever the size of its batches.
-/

namespace Interleave.Storage

/-- The entries of a table between two ends, in order. -/
def ByteMap.between (m : ByteMap) (table : String) (low high : Bound) : List Entry :=
  (m.entriesIn table).filter fun e => low.below e.1 && high.above e.1

namespace ByteMap

theorem between_sorted (m : ByteMap) (table : String) (low high : Bound) :
    (m.between table low high).Pairwise (·.1 < ·.1) := (m.entriesIn_sorted table).filter _

theorem mem_between_iff {m : ByteMap} {table : String} {low high : Bound} {e : Entry} :
    e ∈ m.between table low high ↔
      m.getIn? table e.1 = some e.2 ∧ low.below e.1 = true ∧ high.above e.1 = true := by
  rw [between, List.mem_filter, Bool.and_eq_true, ← mem_entriesIn_iff]

theorem length_between_le (m : ByteMap) (table : String) (low high : Bound) :
    (m.between table low high).length ≤ m.size :=
  (List.length_filter_le ..).trans (List.length_filterMap_le ..)

/-- Going on past the last of the first entries leaves the entries after those. -/
theorem between_excluded_getLast (m : ByteMap) (table : String) (low high : Bound) (count : Nat)
    {last : Entry} (found : ((m.between table low high).take count).getLast? = some last) :
    m.between table (.excluded last.1) high = (m.between table low high).drop count := by
  have sorted := m.between_sorted table low high
  have member := mem_between_iff.1 (List.mem_of_mem_take (List.mem_of_getLast? found))
  have narrowed : m.between table (.excluded last.1) high =
      (m.between table low high).filter fun e => (Bound.excluded last.1).below e.1 := by
    rw [between, between, List.filter_filter]
    refine List.filter_congr fun e _ => ?_
    by_cases after : (Bound.excluded last.1).below e.1 = true
    · simp [after, low.below_mono (Bound.below_excluded.1 after) member.2.1]
    · simp [after]
  obtain ⟨front, split⟩ := List.getLast?_eq_some_iff.1 found
  rw [narrowed]
  conv_lhs => rw [← List.take_append_drop count (m.between table low high)]
  rw [← List.take_append_drop count (m.between table low high), split, List.pairwise_append,
    List.pairwise_append] at sorted
  have earlier : ((m.between table low high).take count).filter
      (fun e => (Bound.excluded last.1).below e.1) = [] := by
    refine List.filter_eq_nil_iff.2 fun e before after => ?_
    rw [split, List.mem_append] at before
    have after := Bound.below_excluded.1 after
    rcases before with before | before
    · exact List.lt_asymm after (sorted.1.2.2 e before last (List.mem_singleton_self _))
    · exact List.lt_irrefl e.1 ((List.mem_singleton.1 before) ▸ after)
  have later : ((m.between table low high).drop count).filter
      (fun e => (Bound.excluded last.1).below e.1) = (m.between table low high).drop count :=
    List.filter_eq_self.2 fun e after => Bound.below_excluded.2 (sorted.2.2 last (by simp) e after)
  rw [List.filter_append, earlier, later, List.nil_append]

end ByteMap

namespace Cursor

/-- A cursor reads a table apart from all others in batches of at least one entry. -/
structure Sound (c : Cursor) : Prop where
  plain : Layout.IsPlain c.table
  batches : 1 ≤ c.batchSize
  inside : ∀ p, c.position = some p → p < c.batch.length

/-- The entries that are still to come. -/
def remaining (c : Cursor) : List Entry :=
  if c.started then
    match c.position with
    | none => []
    | some p =>
      c.batch.drop (p + 1) ++
        match c.hasMore, c.batch.getLast? with
        | true, some last => c.contents.between c.table (.excluded last.1) c.high
        | _, _ => []
  else c.contents.between c.table c.low c.high

theorem sound_between (contents : ByteMap) {batchSize : Nat} {table : String} (low high : Bound)
    (batches : 1 ≤ batchSize) (plain : Layout.IsPlain table) :
    (between contents batchSize table low high).Sound :=
  ⟨plain, batches, fun p none => by cases none⟩

variable {c : Cursor}

/-- Loading stands on the first entry from the new start on, with the others still to come: those of
the batch, and after a full batch those past its last key. -/
theorem loadFrom_spec (sound : c.Sound) (low : Bound) :
    (c.loadFrom low).Sound ∧
      (c.loadFrom low).current? = (c.contents.between c.table low c.high).head? ∧
      (c.loadFrom low).remaining = (c.contents.between c.table low c.high).tail := by
  have batch : c.contents.rangeIn c.table low c.high c.batchSize =
      (c.contents.between c.table low c.high).take c.batchSize :=
    ByteMap.rangeIn_eq sound.plain _ _ _ _
  have past (last : Entry) :
      ((c.contents.between c.table low c.high).take c.batchSize).getLast? = some last →
      c.contents.between c.table (.excluded last.1) c.high =
        (c.contents.between c.table low c.high).drop c.batchSize :=
    c.contents.between_excluded_getLast c.table low c.high c.batchSize
  have batches := sound.batches
  cases all : c.contents.between c.table low c.high with
  | nil =>
    rw [all, List.take_nil] at batch
    refine ⟨⟨sound.plain, batches, ?_⟩, ?_, ?_⟩ <;> simp [loadFrom, batch, current?, remaining]
  | cons e rest =>
    have split : (e :: rest).take c.batchSize = e :: rest.take (c.batchSize - 1) := by
      rw [List.take_cons (by omega)]
    rw [all, split] at batch past
    refine ⟨⟨sound.plain, batches, ?_⟩, by simp [loadFrom, batch, current?], ?_⟩
    · intro p position
      simp only [loadFrom, batch, List.isEmpty_cons, Bool.false_eq_true, if_false,
        Option.some.injEq] at position ⊢
      simp [← position]
    · obtain ⟨last, found⟩ : ∃ last, (e :: rest.take (c.batchSize - 1)).getLast? = some last :=
        ⟨_, List.getLast?_eq_getLast_of_ne_nil (List.cons_ne_nil _ _)⟩
      have tail : (e :: rest).drop c.batchSize = rest.drop (c.batchSize - 1) := by
        obtain ⟨count, same⟩ : ∃ count, c.batchSize = count + 1 := ⟨c.batchSize - 1, by omega⟩
        simp [same]
      by_cases full : c.batchSize ≤ (e :: rest.take (c.batchSize - 1)).length
      · simp only [remaining, loadFrom, batch, List.isEmpty_cons, Bool.false_eq_true, if_false,
          if_true, full, decide_true, found, past last found, tail, Nat.zero_add, List.drop_one,
          List.tail_cons, List.take_append_drop]
      · have whole : rest.take (c.batchSize - 1) = rest := by
          simp only [List.length_cons, List.length_take] at full
          exact List.take_of_length_le (by omega)
        rw [whole] at batch full
        have short : decide (c.batchSize ≤ (e :: rest).length) = false := decide_eq_false full
        simp only [remaining, loadFrom, batch, List.isEmpty_cons, Bool.false_eq_true, if_false,
          if_true, short, Nat.zero_add, List.drop_one, List.tail_cons, List.append_nil]

/-- A step yields the first of the entries to come and leaves the others. -/
theorem next_spec (sound : c.Sound) :
    c.next.Sound ∧ c.next.current? = c.remaining.head? ∧ c.next.remaining = c.remaining.tail := by
  unfold next
  by_cases started : c.started = true
  · cases position : c.position with
    | none => simp [started, position, remaining, current?, sound]
    | some p =>
      have inside := sound.inside p position
      by_cases within : p + 1 < c.batch.length
      · have split : c.batch.drop (p + 1) = c.batch[p + 1] :: c.batch.drop (p + 2) :=
          List.drop_eq_getElem_cons within
        simp only [started, Bool.not_true, Bool.false_eq_true, if_false, if_pos within]
        refine ⟨⟨sound.plain, sound.batches, ?_⟩, ?_, ?_⟩
        · intro q same
          exact Option.some.inj same ▸ within
        · simp only [remaining, started, position, current?, if_true, Option.bind_some]
          rw [split, List.getElem?_eq_getElem within]
          rfl
        · simp only [remaining, started, position, if_true]
          rw [split]
          rfl
      · have spent : c.batch.drop (p + 1) = [] := List.drop_eq_nil_iff.2 (by omega)
        have last : c.batch.getLast? = c.batch[p]? := by
          rw [List.getLast?_eq_getElem?]
          congr 1
          omega
        by_cases more : c.hasMore = true
        · rw [List.getElem?_eq_getElem inside] at last
          have to_come :
              c.remaining = c.contents.between c.table (.excluded c.batch[p].1) c.high := by
            simp [remaining, started, position, spent, more, last]
          simpa [started, within, more, to_come, List.getElem?_eq_getElem inside] using
            loadFrom_spec sound (.excluded c.batch[p].1)
        · simp only [started, Bool.not_true, Bool.false_eq_true, if_false, if_neg within]
          simp only [more, Bool.not_false, if_true]
          refine ⟨⟨sound.plain, sound.batches, by simp⟩, ?_, ?_⟩ <;>
            simp [remaining, started, position, spent, more, current?]
  · have to_come : c.remaining = c.contents.between c.table c.low c.high := by
      simp [remaining, started]
    simpa [started, to_come, seekFirst] using loadFrom_spec sound c.low

theorem take_spec (sound : c.Sound) (count : Nat) :
    (c.take count).1 = c.remaining.take count ∧
      ((c.take count).2.1 = true ↔ count ≤ c.remaining.length) := by
  induction count generalizing c with
  | zero => simp [take]
  | succ count ih =>
    obtain ⟨stays, current, remaining⟩ := next_spec sound
    have ⟨entries, more⟩ := ih stays
    simp only [take, current]
    cases to_come : c.remaining with
    | nil => simp
    | cons e rest =>
      rw [remaining, to_come] at entries more
      simp [entries, more]

theorem drain?_eq (c : Cursor) : c.drain? =
    if (c.take (yieldBound c.contents)).2.1 then none else some (c.take (yieldBound c.contents)).1 := rfl

/-- Draining a cursor yields the entries between its ends. -/
theorem drain_between (contents : ByteMap) {batchSize : Nat} {table : String} (low high : Bound)
    (batches : 1 ≤ batchSize) (plain : Layout.IsPlain table) :
    (between contents batchSize table low high).drain? = some (contents.between table low high) := by
  obtain ⟨entries, more⟩ := take_spec (sound_between contents low high batches plain) (yieldBound contents)
  have to_come : (between contents batchSize table low high).remaining =
    contents.between table low high := rfl
  have few : (contents.between table low high).length < yieldBound contents := by
    have fits := contents.length_between_le table low high
    have grows := Nat.mul_le_mul_left (contents.size + 1) (Nat.le_add_left 1 contents.size)
    show _ < (contents.size + 1) * (contents.size + 1)
    omega
  rw [to_come] at entries more
  have ended : ¬ ((between contents batchSize table low high).take (yieldBound contents)).2.1 = true :=
    fun further => Nat.not_le.2 few (more.1 further)
  rw [drain?_eq, show (between contents batchSize table low high).contents = contents from rfl, if_neg ended,
    entries, List.take_of_length_le (Nat.le_of_lt few)]

end Cursor

end Interleave.Storage
