import Mathlib.Logic.Function.Basic
import Interleave.Proofs.Storage.CursorMoves

/-!
Logical tables of one key space. Read table by table, the one map is a family of maps that know nothing of
each other. Main statement: a transaction answers any calls as such a family does, a table's name needing
only to be without zero bytes, and no range of one table touches a key of another.
-/

namespace Interleave.Storage

open Layout (IsPlain encodeKey lowBound highBound)

/-- A call on a logical table. A walk makes moves with a cursor over a range of it. -/
inductive TableCall where
  | get (table : String) (key : Bytes)
  | put (table : String) (key value : Bytes)
  | delete (table : String) (key : Bytes)
  | walk (table : String) (low high : Bound) (moves : List Move)

inductive TableReply where
  | found (value : Option Bytes)
  | written
  | removed (was : Bool)
  | walked (answers : List (Option Entry))
deriving DecidableEq

namespace TableCall

def table : TableCall → String
  | get table _ | put table _ _ | delete table _ | walk table _ _ _ => table

/-- What a call leaves at a key of a table, if it writes there: the value put, or nothing. -/
def effect? (table : String) (key : Bytes) : TableCall → Option (Option Bytes)
  | put table' key' value => if table' = table ∧ key' = key then some (some value) else none
  | delete table' key' => if table' = table ∧ key' = key then some none else none
  | get .. | walk .. => none

/-- What the last of the calls that write at a key of a table leaves there. -/
def lastEffect? (table : String) (key : Bytes) (calls : List TableCall) : Option (Option Bytes) :=
  calls.reverse.findSome? (effect? table key)

theorem lastEffect?_cons (table : String) (key : Bytes) (call : TableCall) (rest : List TableCall) :
    lastEffect? table key (call :: rest) =
      (lastEffect? table key rest).or (call.effect? table key) := by
  rw [lastEffect?, List.reverse_cons, List.findSome?_append, List.findSome?_singleton]
  rfl

end TableCall

namespace Transaction

def call (tx : Transaction) : TableCall → Except StorageError (TableReply × Transaction)
  | .get table key => .ok (.found (tx.get? table key), tx)
  | .put table key value => (tx.put table key value).map fun tx => (.written, tx)
  | .delete table key => (tx.delete table key).map fun (was, tx) => (.removed was, tx)
  | .walk table low high moves => .ok (.walked ((tx.range table low high).answers moves), tx)

def run (tx : Transaction) : List TableCall → Except StorageError (List TableReply × Transaction)
  | [] => .ok ([], tx)
  | call :: rest => do
    let (reply, tx) ← tx.call call
    let (replies, tx) ← tx.run rest
    return (reply :: replies, tx)

end Transaction

/-- A map for every name, each apart from the others. -/
abbrev Tables := String → ByteMap

namespace Tables

def call (tables : Tables) : TableCall → TableReply × Tables
  | .get table key => (.found ((tables table).get? key), tables)
  | .put table key value =>
    (.written, Function.update tables table ((tables table).insert key value))
  | .delete table key =>
    (.removed ((tables table).contains key), Function.update tables table ((tables table).erase key))
  | .walk table low high moves =>
    let entries := (tables table).entries.filter fun e => low.below e.1 && high.above e.1
    (.walked ((PlainCursor.before entries).answers moves), tables)

def run (tables : Tables) : List TableCall → List TableReply × Tables
  | [] => ([], tables)
  | call :: rest =>
    let (reply, tables) := tables.call call
    let (replies, tables) := tables.run rest
    (reply :: replies, tables)

/-- Reading after one table changed at one key. -/
theorem get?_update {tables : Tables} {table' : String} {changed : ByteMap} {key' : Bytes}
    {value : Option Bytes} (here : changed.get? key' = value)
    (elsewhere : ∀ other, key' ≠ other → changed.get? other = (tables table').get? other)
    (table : String) (key : Bytes) :
    (Function.update tables table' changed table).get? key =
      (if table' = table ∧ key' = key then some value else none).getD ((tables table).get? key) := by
  by_cases named : table' = table
  · subst named
    rw [Function.update_self]
    by_cases same : key' = key
    · simp [same, ← here]
    · simp [same, elsewhere key same]
  · rw [Function.update_of_ne (Ne.symm named), if_neg fun both => named both.1]
    rfl

theorem get?_call (tables : Tables) (call : TableCall) (table : String) (key : Bytes) :
    ((tables.call call).2 table).get? key =
      (call.effect? table key).getD ((tables table).get? key) := by
  cases call with
  | get | walk => rfl
  | put table' key' value =>
    exact get?_update (ByteMap.get?_insert_self ..)
      (fun _ apart => ByteMap.get?_insert_of_ne _ value apart) table key
  | delete table' key' =>
    exact get?_update (ByteMap.get?_erase_self ..)
      (fun _ apart => ByteMap.get?_erase_of_ne _ apart) table key

theorem get?_run (tables : Tables) (calls : List TableCall) (table : String) (key : Bytes) :
    ((tables.run calls).2 table).get? key =
      (TableCall.lastEffect? table key calls).getD ((tables table).get? key) := by
  induction calls generalizing tables with
  | nil => rfl
  | cons call rest ih =>
    show (((tables.call call).2.run rest).2 table).get? key = _
    rw [ih, get?_call, TableCall.lastEffect?_cons]
    cases TableCall.lastEffect? table key rest <;> rfl

end Tables

namespace ByteMap

/-- The tables of a shared key space, each under its logical keys. -/
def tables (m : ByteMap) : Tables := fun table => ⟨m.entriesIn table, m.entriesIn_sorted table⟩

theorem get?_tables (m : ByteMap) (table : String) (key : Bytes) :
    (m.tables table).get? key = m.getIn? table key := by
  refine Option.ext fun value => ?_
  rw [← mem_entries_iff, ← mem_entriesIn_iff]
  rfl

theorem contains_eq_isSome (m : ByteMap) (key : Bytes) : m.contains key = (m.get? key).isSome := by
  rw [Bool.eq_iff_iff, contains, get?, Option.isSome_map, List.find?_isSome, List.any_eq_true]

/-- Whether a shared key space holds a family of tables. Names with a zero byte do not count. -/
def Refines (m : ByteMap) (tables : Tables) : Prop :=
  ∀ table, IsPlain table → m.tables table = tables table

variable {m : ByteMap} {tables : Tables} (refines : m.Refines tables)
include refines

theorem Refines.getIn? {table : String} (plain : IsPlain table) (key : Bytes) :
    m.getIn? table key = (tables table).get? key := by
  rw [← refines table plain, get?_tables]

theorem Refines.containsIn {table : String} (plain : IsPlain table) (key : Bytes) :
    m.containsIn table key = (tables table).contains key := by
  rw [ByteMap.containsIn, contains_eq_isSome, contains_eq_isSome]
  exact congrArg _ (refines.getIn? plain key)

/-- A map that differs from the old one only at a key of one table holds the family with that table
changed there. -/
theorem Refines.update {m' changed : ByteMap} {table : String} (plain : IsPlain table) {key : Bytes}
    {value : Option Bytes} (here : changed.get? key = value)
    (elsewhere : ∀ other, key ≠ other → changed.get? other = (tables table).get? other)
    (here' : m'.getIn? table key = value)
    (elsewhere' : ∀ physical, encodeKey table key ≠ physical → m'.get? physical = m.get? physical) :
    m'.Refines (Function.update tables table changed) := by
  refine fun table' plain' => ext_get? fun other => ?_
  rw [get?_tables, Tables.get?_update here elsewhere]
  split
  next same =>
    obtain ⟨rfl, rfl⟩ := same
    exact here'
  next different =>
    have apart : encodeKey table key ≠ encodeKey table' other := fun equal =>
      different ((Layout.encodeKey_inj plain plain').1 equal)
    rw [ByteMap.getIn?, elsewhere' _ apart]
    exact refines.getIn? plain' other

end ByteMap

/-- A write transaction that holds a family of tables. -/
structure Transaction.Holds (tx : Transaction) (tables : Tables) : Prop where
  writes : tx.readOnly = false
  batches : 1 ≤ tx.cursorBatch
  refines : tx.contents.Refines tables

namespace Transaction.Holds

variable {tx : Transaction} {tables : Tables}

/-- A call is answered as by the family, and the family's change is held then. -/
theorem call (holds : tx.Holds tables) {call : TableCall} (plain : IsPlain call.table) :
    ∃ tx', tx.call call = .ok ((tables.call call).1, tx') ∧ tx'.Holds (tables.call call).2 := by
  have refines := holds.refines
  cases call with
  | get table key =>
    have read : tx.get? table key = (tables table).get? key := refines.getIn? plain key
    exact ⟨tx, by rw [Transaction.call, read]; rfl, holds⟩
  | put table key value =>
    refine ⟨{ tx with contents := tx.contents.putIn table key value }, ?_, holds.writes,
      holds.batches, ?_⟩
    · rw [Transaction.call, Transaction.put, holds.writes]
      rfl
    · exact refines.update plain (ByteMap.get?_insert_self ..)
        (fun _ apart => ByteMap.get?_insert_of_ne _ value apart) (ByteMap.get?_insert_self ..)
        (fun _ apart => ByteMap.get?_insert_of_ne _ value apart)
  | delete table key =>
    have there : tx.contents.containsIn table key = (tables table).contains key :=
      refines.containsIn plain key
    refine ⟨{ tx with contents := tx.contents.eraseIn table key }, ?_, holds.writes,
      holds.batches, ?_⟩
    · rw [Transaction.call, Transaction.delete, holds.writes, there]
      rfl
    · exact refines.update plain (ByteMap.get?_erase_self ..)
        (fun _ apart => ByteMap.get?_erase_of_ne _ apart) (ByteMap.get?_erase_self ..)
        (fun _ apart => ByteMap.get?_erase_of_ne _ apart)
  | walk table low high moves =>
    have entries : tx.contents.entriesIn table = (tables table).entries :=
      congrArg ByteMap.entries (refines table plain)
    have answers : (tx.range table low high).answers moves =
        (PlainCursor.before (tx.contents.between table low high)).answers moves :=
      (range_follows holds.batches plain low high).answers moves
    exact ⟨tx, by rw [Transaction.call, answers, ByteMap.between, entries]; rfl, holds⟩

theorem run (holds : tx.Holds tables) {calls : List TableCall}
    (named : ∀ call ∈ calls, IsPlain call.table) :
    ∃ tx', tx.run calls = .ok ((tables.run calls).1, tx') ∧ tx'.Holds (tables.run calls).2 := by
  induction calls generalizing tx tables with
  | nil => exact ⟨tx, rfl, holds⟩
  | cons call rest ih =>
    rw [List.forall_mem_cons] at named
    obtain ⟨tx₁, called, holds₁⟩ := holds.call named.1
    obtain ⟨tx₂, went, holds₂⟩ := ih holds₁ named.2
    refine ⟨tx₂, ?_, holds₂⟩
    rw [Transaction.run, called]
    show (tx₁.run rest >>= fun r => pure ((tables.call call).1 :: r.1, r.2)) = _
    rw [went]
    rfl

end Transaction.Holds

namespace Bound

def key? : Bound → Option Bytes
  | unbounded => none
  | included key | excluded key => some key

/-- Ends that an ordered map takes for a range: the lower key is not above the upper one, and they are not
one key left out on both sides. -/
structure Orderly (low high : Bound) : Prop where
  ascending : ∀ a ∈ low.key?, ∀ b ∈ high.key?, ¬ b < a
  apart : ∀ key, ¬ (low = excluded key ∧ high = excluded key)

theorem orderly_of_not_disjoint {low high : Bound} (room : low.disjoint high = false) :
    low.Orderly high := by
  have gt {a b : Bytes} (h : (Bytes.order a b).isGT = false) : ¬ b < a := fun less => by
    simp [Bytes.order_eq_gt_iff.2 less] at h
  have ge {a b : Bytes} (h : (Bytes.order a b).isGE = false) : ¬ b < a := fun less => by
    simp [Bytes.order_eq_gt_iff.2 less] at h
  constructor
  · rintro a lower b upper
    cases low <;> cases high <;>
      simp only [key?, Option.mem_def, reduceCtorEq, Option.some.injEq] at lower upper
    all_goals subst lower upper
    · exact gt room
    all_goals exact ge room
  · rintro key ⟨rfl, rfl⟩
    simp [disjoint, Bytes.order_self] at room

end Bound

namespace Layout

/-- A range of a table admits the keys of this table between its logical ends, and of no other. -/
theorem between_encodeKey_iff {table table' : String} (plain : IsPlain table) (plain' : IsPlain table')
    (low high : Bound) (key : Bytes) :
    ((lowBound table low).below (encodeKey table' key) = true ∧
        (highBound table high).above (encodeKey table' key) = true) ↔
      table' = table ∧ low.below key = true ∧ high.above key = true := by
  constructor
  · rintro ⟨first, last⟩
    obtain ⟨k, same⟩ := (firstKey_prefix_iff table _).1 (firstKey_prefix_of_between first last)
    obtain ⟨rfl, rfl⟩ := (encodeKey_inj plain' plain).1 same
    rw [below_lowBound_encodeKey] at first
    rw [above_highBound_encodeKey] at last
    exact ⟨rfl, first, last⟩
  · rintro ⟨rfl, first, last⟩
    rw [below_lowBound_encodeKey, above_highBound_encodeKey]
    exact ⟨first, last⟩

end Layout

/-- Calls on any tables are answered as by maps apart from each other: what stands at a key of a table is what
the last call that wrote there left. The range between two ends of a table keeps to this table, in the order
of its keys, and it is asked for only when its ends leave room and stand the right way round. -/
theorem Transaction.tables_apart {tx : Transaction} (writes : tx.readOnly = false)
    (batches : 1 ≤ tx.cursorBatch) {calls : List TableCall}
    (named : ∀ call ∈ calls, IsPlain call.table) {table : String} (plain : IsPlain table)
    (low high : Bound) :
    (∃ tx', tx.run calls = .ok ((tx.contents.tables.run calls).1, tx') ∧ ∀ key,
      tx'.get? table key =
        (TableCall.lastEffect? table key calls).getD (tx.get? table key) ∧
      ∃ tx'', tx'.delete table key =
        .ok (((TableCall.lastEffect? table key calls).getD (tx.get? table key)).isSome, tx'')) ∧
    (∀ table', IsPlain table' → ∀ key,
      ((lowBound table low).below (encodeKey table' key) = true ∧
        (highBound table high).above (encodeKey table' key) = true) ↔
      table' = table ∧ low.below key = true ∧ high.above key = true) ∧
    (∀ key, Layout.decodeKey? (encodeKey table key) = some (table, key)) ∧
    (∀ key key', encodeKey table key < encodeKey table key' ↔ key < key') ∧
    ((lowBound table low).disjoint (highBound table high) = true → ∀ physical,
      ¬ ((lowBound table low).below physical = true ∧ (highBound table high).above physical = true)) ∧
    ((lowBound table low).disjoint (highBound table high) = false →
      (lowBound table low).Orderly (highBound table high)) := by
  have holds : tx.Holds tx.contents.tables := ⟨writes, batches, fun _ _ => rfl⟩
  obtain ⟨tx', went, holds'⟩ := holds.run named
  have reads (key : Bytes) : tx'.get? table key =
      (TableCall.lastEffect? table key calls).getD (tx.get? table key) := by
    rw [get?, holds'.refines.getIn? plain, Tables.get?_run, ByteMap.get?_tables]
    rfl
  have removes (key : Bytes) : tx'.delete table key =
      .ok (((TableCall.lastEffect? table key calls).getD (tx.get? table key)).isSome,
        { tx' with contents := tx'.contents.eraseIn table key }) := by
    rw [delete, holds'.writes, ByteMap.containsIn, ByteMap.contains_eq_isSome, ← reads]
    rfl
  exact ⟨⟨tx', went, fun key => ⟨reads key, _, removes key⟩⟩,
    fun _ plain' => Layout.between_encodeKey_iff plain plain' low high,
    Layout.decodeKey?_encodeKey plain, Layout.encodeKey_lt_iff table,
    fun empty _ inside => Bound.not_between_of_disjoint empty inside.1 inside.2,
    Bound.orderly_of_not_disjoint⟩

/-- Calls on three tables, of which two have names that go on from the name of the third. -/
def TableCall.letters : List TableCall :=
  [.put "t" [1] [7], .put "tu" [1] [8], .put "t\u0001" [1] [9], .put "t" [2] [6], .delete "tu" [1],
    .delete "tu" [2], .get "tu" [1], .put "t" [1] [5], .walk "t" .unbounded .unbounded [.next, .next, .next]]

theorem Transaction.tables_apart_letters :
    (Engine.create .standard).beginWrite.readOnly = false ∧
    1 ≤ (Engine.create .standard).beginWrite.cursorBatch ∧
    (∀ call ∈ TableCall.letters, IsPlain call.table) ∧ IsPlain "t" ∧
    (∃ tx', (Engine.create .standard).beginWrite.run TableCall.letters =
        .ok ([.written, .written, .written, .written, .removed true, .removed false, .found none,
          .written, .walked [some ([1], [5]), some ([2], [6]), none]], tx') ∧
      tx'.get? "t" [1] = some [5] ∧ ∃ tx'', tx'.delete "t" [1] = .ok (true, tx'')) ∧
    (∀ key, ((lowBound "t" .unbounded).below (encodeKey "tu" key) = true ∧
        (highBound "t" (.excluded [2])).above (encodeKey "tu" key) = true) ↔
      "tu" = "t" ∧ Bound.unbounded.below key = true ∧ (Bound.excluded [2]).above key = true) ∧
    (lowBound "t" .unbounded).Orderly (highBound "t" (.excluded [2])) := by
  have named : ∀ call ∈ TableCall.letters, IsPlain call.table := by
    unfold IsPlain
    decide +kernel
  have plain : IsPlain "t" := by
    unfold IsPlain
    decide +kernel
  have plain' : IsPlain "tu" := by
    unfold IsPlain
    decide +kernel
  have writes : (Engine.create .standard).beginWrite.readOnly = false := rfl
  have batches : 1 ≤ (Engine.create .standard).beginWrite.cursorBatch := by decide
  obtain ⟨⟨tx', went, left⟩, within, _, _, _, ends⟩ :=
    tables_apart writes batches named plain .unbounded (.excluded [2])
  have replies : ((Engine.create .standard).beginWrite.contents.tables.run TableCall.letters).1 =
      [.written, .written, .written, .written, .removed true, .removed false, .found none,
        .written, .walked [some ([1], [5]), some ([2], [6]), none]] := by decide +kernel
  rw [replies] at went
  exact ⟨writes, batches, named, plain, ⟨tx', went, left [1]⟩, within "tu" plain',
    ends (by decide +kernel)⟩

end Interleave.Storage
