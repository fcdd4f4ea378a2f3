import Interleave.Proofs.Storage.CursorRuns
import Interleave.Storage.Transaction

/-!
Moves of a cursor. A plain cursor walks over a list of entries and knows nothing of batches. Main statement:
whatever moves are made, a cursor of a transaction answers as the plain cursor does over the entries of its
range.
-/

namespace Interleave.Storage

/-- Where a plain cursor stands: before its first move, on an entry, or past the last one. -/
inductive Spot where
  | start
  | on (entry : Entry)
  | past

structure PlainCursor where
  entries : List Entry
  spot : Spot

namespace PlainCursor

def before (entries : List Entry) : PlainCursor := ⟨entries, .start⟩

def current? (p : PlainCursor) : Option Entry :=
  match p.spot with
  | .on entry => some entry
  | _ => none

/-- Stands on an entry, or past the last one if there is none. -/
def moveTo (p : PlainCursor) : Option Entry → PlainCursor
  | some entry => { p with spot := .on entry }
  | none => { p with spot := .past }

/-- To the first entry that does not come before a key. -/
def seek (p : PlainCursor) (key : Bytes) : PlainCursor :=
  p.moveTo (p.entries.find? fun e => !decide (e.1 < key))

def seekFirst (p : PlainCursor) : PlainCursor := p.moveTo p.entries.head?

/-- To the first entry strictly after the one that it stands on. -/
def next (p : PlainCursor) : PlainCursor :=
  match p.spot with
  | .start => p.seekFirst
  | .on entry => p.moveTo (p.entries.find? fun e => entry.1 < e.1)
  | .past => p

end PlainCursor

/-- A call on a cursor. Looking at the current entry moves nothing. -/
inductive Move where
  | seek (key : Bytes)
  | seekFirst
  | next
  | current

def Cursor.after (c : Cursor) : Move → Cursor
  | .seek key => c.seek key
  | .seekFirst => c.seekFirst
  | .next => c.next
  | .current => c

def PlainCursor.after (p : PlainCursor) : Move → PlainCursor
  | .seek key => p.seek key
  | .seekFirst => p.seekFirst
  | .next => p.next
  | .current => p

/-- Every call answers with the entry that the cursor then stands on, if any. -/
def Cursor.answers : Cursor → List Move → List (Option Entry)
  | _, [] => []
  | c, move :: rest => (c.after move).current? :: (c.after move).answers rest

def PlainCursor.answers : PlainCursor → List Move → List (Option Entry)
  | _, [] => []
  | p, move :: rest => (p.after move).current? :: (p.after move).answers rest

namespace Cursor

/-- The entries in the range of a cursor. -/
def range (c : Cursor) : List Entry := c.contents.between c.table c.low c.high

theorem range_next (c : Cursor) : c.next.range = c.range := by
  unfold next
  split
  · rfl
  · split
    · rfl
    · split
      · rfl
      · split
        · rfl
        · split
          · rfl
          · rfl

/-- A range that starts past a key has no entry before the key. -/
theorem not_lt_of_startsPast {c : Cursor} {key k : Bytes} (past : c.startsPast key = true)
    (inside : c.low.below k = true) : ¬ k < key := by
  unfold startsPast at past
  split at past
  next b low =>
    rw [low, Bound.below_included] at inside
    exact fun less => inside (List.lt_trans less (of_decide_eq_true past))
  next b low =>
    rw [low, Bound.below_excluded] at inside
    have least : ¬ b < key := by simpa using past
    exact fun less => least (List.lt_trans inside less)
  · cases past

/-- A range that does not start past a key has room for every later key above its lower end. -/
theorem below_of_not_startsPast {c : Cursor} {key k : Bytes} (open_below : c.startsPast key = false)
    (later : ¬ k < key) : c.low.below k = true := by
  unfold startsPast at open_below
  split at open_below
  next b low =>
    rw [low, Bound.below_included]
    exact Bytes.not_lt_trans (of_decide_eq_false open_below) later
  next b low =>
    rw [low, Bound.below_excluded]
    have less : b < key := by simpa using open_below
    exact Bytes.lt_of_lt_of_not_lt less later
  next low =>
    rw [low]
    rfl

/-- Seeking a key stands on the first entry of the range that does not come before it. -/
theorem seek_spec {c : Cursor} (sound : c.Sound) (key : Bytes) :
    (c.seek key).Sound ∧ (c.seek key).range = c.range ∧
      (c.seek key).current? = (c.range.filter fun e => !decide (e.1 < key)).head? ∧
      (c.seek key).remaining = (c.range.filter fun e => !decide (e.1 < key)).tail := by
  unfold seek
  cases past : c.startsPast key with
  | true =>
    have all : (c.range.filter fun e => !decide (e.1 < key)) = c.range := by
      refine List.filter_eq_self.2 fun e member => ?_
      have inside := (ByteMap.mem_between_iff.1 member).2.1
      simpa using not_lt_of_startsPast past inside
    obtain ⟨stays, current, remaining⟩ := loadFrom_spec sound c.low
    rw [all]
    exact ⟨stays, rfl, current, remaining⟩
  | false =>
    have onward : c.contents.between c.table (.included key) c.high =
        c.range.filter fun e => !decide (e.1 < key) := by
      rw [range, ByteMap.between, ByteMap.between, List.filter_filter]
      refine List.filter_congr fun e _ => ?_
      by_cases before : e.1 < key
      · have outside : (Bound.included key).below e.1 = false := by
          rw [← Bool.not_eq_true, Bound.below_included]
          exact not_not.2 before
        simp [before, outside]
      · simp [before, Bound.below_included.2 before, below_of_not_startsPast past before]
    obtain ⟨stays, current, remaining⟩ := loadFrom_spec sound (.included key)
    rw [onward] at current remaining
    exact ⟨stays, rfl, current, remaining⟩

end Cursor

namespace PlainCursor

/-- The entries that come after the spot. -/
def ahead (p : PlainCursor) : List Entry :=
  match p.spot with
  | .start => p.entries
  | .on entry => p.entries.filter fun e => entry.1 < e.1
  | .past => []

theorem next_eq (p : PlainCursor) : p.next = p.moveTo p.ahead.head? := by
  unfold next ahead
  split
  · rfl
  · rw [List.head?_filter]
  next past =>
    cases p
    cases past
    rfl

theorem entries_moveTo (p : PlainCursor) (found : Option Entry) :
    (p.moveTo found).entries = p.entries := by
  cases found <;> rfl

theorem current?_moveTo (p : PlainCursor) (found : Option Entry) :
    (p.moveTo found).current? = found := by
  cases found <;> rfl

/-- The entries from some key on stand at the end of those in order. -/
theorem exists_front {entries : List Entry} (sorted : entries.Pairwise (·.1 < ·.1))
    (later : Entry → Bool) (onward : ∀ a b : Entry, a.1 < b.1 → later a = true → later b = true) :
    ∃ front, entries = front ++ entries.filter later := by
  induction entries with
  | nil => exact ⟨[], rfl⟩
  | cons e rest ih =>
    obtain ⟨first, others⟩ := List.pairwise_cons.1 sorted
    cases here : later e with
    | true =>
      have all : (e :: rest).filter later = e :: rest :=
        List.filter_eq_self.2 (List.forall_mem_cons.2 ⟨here, fun f member => onward e f (first f member) here⟩)
      exact ⟨[], by rw [all, List.nil_append]⟩
    | false =>
      obtain ⟨front, split⟩ := ih others
      refine ⟨e :: front, ?_⟩
      rw [List.filter_cons_of_neg (by simp [here]), List.cons_append, ← split]

variable {p : PlainCursor} (sorted : p.entries.Pairwise (·.1 < ·.1))
include sorted

theorem ahead_suffix : ∃ front, p.entries = front ++ p.ahead := by
  unfold ahead
  split
  · exact ⟨[], rfl⟩
  next entry _ =>
    refine exists_front sorted _ fun a b less after => ?_
    exact decide_eq_true (List.lt_trans (of_decide_eq_true after) less)
  · exact ⟨p.entries, (List.append_nil _).symm⟩

/-- Standing on the first of the entries from some point on leaves the others ahead. -/
theorem ahead_moveTo {front rest : List Entry} (split : p.entries = front ++ rest) :
    (p.moveTo rest.head?).ahead = rest.tail := by
  cases rest with
  | nil => rfl
  | cons e rest =>
    rw [split, List.pairwise_append, List.pairwise_cons] at sorted
    obtain ⟨_, ⟨later, _⟩, earlier⟩ := sorted
    have before : (front ++ [e]).filter (fun f => e.1 < f.1) = [] := by
      refine List.filter_eq_nil_iff.2 fun f member => ?_
      rcases List.mem_append.1 member with member | here
      · simpa using List.lt_asymm (earlier f member e List.mem_cons_self)
      · simp [List.mem_singleton.1 here]
    have after : rest.filter (fun f => e.1 < f.1) = rest :=
      List.filter_eq_self.2 fun f member => by simpa using later f member
    show p.entries.filter (fun f => e.1 < f.1) = rest
    rw [split, ← List.singleton_append, ← List.append_assoc, List.filter_append, before, after,
      List.nil_append]

end PlainCursor

/-- Whether a cursor stands where a plain cursor over the entries of its range does. -/
structure Cursor.Follows (c : Cursor) (p : PlainCursor) : Prop where
  sound : c.Sound
  range : c.range = p.entries
  current : c.current? = p.current?
  remaining : c.remaining = p.ahead

namespace Cursor.Follows

variable {c : Cursor} {p : PlainCursor}

theorem sorted (follows : c.Follows p) : p.entries.Pairwise (·.1 < ·.1) :=
  follows.range ▸ c.contents.between_sorted c.table c.low c.high

/-- Both go to the first of the entries from some point on. -/
theorem moveTo (follows : c.Follows p) {c' : Cursor} (sound : c'.Sound) (range : c'.range = c.range)
    {front rest : List Entry} (split : p.entries = front ++ rest) (current : c'.current? = rest.head?)
    (remaining : c'.remaining = rest.tail) : c'.Follows (p.moveTo rest.head?) where
  sound := sound
  range := by rw [range, follows.range, p.entries_moveTo]
  current := by rw [current, p.current?_moveTo]
  remaining := by rw [remaining, PlainCursor.ahead_moveTo follows.sorted split]

/-- Every move takes both to the same spot. -/
theorem after (follows : c.Follows p) (move : Move) : (c.after move).Follows (p.after move) := by
  cases move with
  | seek key =>
    obtain ⟨sound, range, current, remaining⟩ := seek_spec follows.sound key
    rw [follows.range] at current remaining
    obtain ⟨front, split⟩ := PlainCursor.exists_front follows.sorted
      (fun e => !decide (e.1 < key)) fun a b less later => by
        have least : ¬ a.1 < key := by simpa using later
        simpa using Bytes.not_lt_trans least (List.lt_asymm less)
    have moved := follows.moveTo sound range split current remaining
    rwa [List.head?_filter] at moved
  | seekFirst =>
    obtain ⟨sound, current, remaining⟩ := loadFrom_spec follows.sound c.low
    have range : c.contents.between c.table c.low c.high = p.entries := follows.range
    rw [range] at current remaining
    exact follows.moveTo sound rfl (List.nil_append _).symm current remaining
  | next =>
    obtain ⟨sound, current, remaining⟩ := next_spec follows.sound
    rw [follows.remaining] at current remaining
    obtain ⟨front, split⟩ := PlainCursor.ahead_suffix follows.sorted
    have moved := follows.moveTo sound c.range_next split current remaining
    rwa [← p.next_eq] at moved
  | current => exact follows

theorem answers (follows : c.Follows p) (moves : List Move) : c.answers moves = p.answers moves := by
  induction moves generalizing c p with
  | nil => rfl
  | cons move rest ih =>
    have next := follows.after move
    rw [Cursor.answers, PlainCursor.answers, next.current, ih next]

end Cursor.Follows

/-- A cursor of a transaction before its first move. -/
theorem Transaction.range_follows {tx : Transaction} (batches : 1 ≤ tx.cursorBatch) {table : String}
    (plain : Layout.IsPlain table) (low high : Bound) :
    (tx.range table low high).Follows (.before (tx.contents.between table low high)) where
  sound := Cursor.sound_between tx.contents low high batches plain
  range := rfl
  current := rfl
  remaining := rfl

/-- A cursor of a transaction answers every call as a plain cursor over the sorted entries of its range,
whatever the size of its batches. -/
theorem Transaction.range_answers {tx : Transaction} (batches : 1 ≤ tx.cursorBatch) {table : String}
    (plain : Layout.IsPlain table) (low high : Bound) : ∃ entries : List Entry,
      entries.Pairwise (·.1 < ·.1) ∧
      (∀ e, e ∈ entries ↔
        tx.get? table e.1 = some e.2 ∧ low.below e.1 = true ∧ high.above e.1 = true) ∧
      ∀ moves, (tx.range table low high).answers moves = (PlainCursor.before entries).answers moves :=
  ⟨tx.contents.between table low high, tx.contents.between_sorted table low high,
    fun _ => ByteMap.mem_between_iff, (range_follows batches plain low high).answers⟩

/-- Four keys of one table and one of a table whose name goes on from it, read two at a time. -/
def Transaction.letters : Transaction where
  readOnly := true
  contents := [("t", [4]), ("t", [2]), ("tu", [2]), ("t", [1]), ("t", [3])].foldl
    (fun m (table, key) => m.putIn table key key) .empty
  cursorBatch := 2

theorem Transaction.range_answers_letters :
    1 ≤ letters.cursorBatch ∧ Layout.IsPlain "t" ∧
    (∃ entries : List Entry, entries.Pairwise (·.1 < ·.1) ∧
      (∀ e, e ∈ entries ↔ letters.get? "t" e.1 = some e.2 ∧
        (Bound.excluded [1]).below e.1 = true ∧ Bound.unbounded.above e.1 = true) ∧
      ∀ moves, (letters.range "t" (.excluded [1]) .unbounded).answers moves =
        (PlainCursor.before entries).answers moves) ∧
    (letters.range "t" (.excluded [1]) .unbounded).answers
        [.current, .next, .next, .next, .next, .next, .seek [0], .current, .seek [3], .next, .seekFirst] =
      [none, some ([2], [2]), some ([3], [3]), some ([4], [4]), none, none, some ([2], [2]),
        some ([2], [2]), some ([3], [3]), some ([4], [4]), some ([2], [2])] := by
  have plain : Layout.IsPlain "t" := by
    unfold Layout.IsPlain
    decide +kernel
  have batches : 1 ≤ letters.cursorBatch := by decide
  exact ⟨batches, plain, range_answers batches plain _ _, by decide +kernel⟩

end Interleave.Storage
