import Interleave.Proofs.Store.Consistency

/-!
The rows that a history leaves. A ledger follows insertions and deletions row by row and knows nothing
of keys or bytes. Main statement: after any run of insertions and deletions, refused ones among them, the
keyspaces of a store agree, and its rows are exactly those of the ledger, each with the values that it was
inserted with.
-/

namespace Interleave

/-- The tables and values of the rows that are there, the last one first. -/
abbrev Ledger := List (Table × List Value)

namespace Ledger

/-- Whether a row is found by a table and a key value. -/
def IsNamed (id : TableId) (own : Value) (row : Table × List Value) : Prop :=
  row.1.id = id ∧ (Store.primaryKey row.1 row.2).canonical = own.canonical

instance (id : TableId) (own : Value) : DecidablePred (IsNamed id own) :=
  fun _ => inferInstanceAs (Decidable (_ ∧ _))

/-- Whether a row suits its table, can be written and has a key value of its own. -/
def Admits (l : Ledger) (t : Table) (values : List Value) : Prop :=
  values.length = t.columnCount ∧ (Codec.Body.encodeRow values).isOk = true ∧
    ∀ row ∈ l, ¬ IsNamed t.id (Store.primaryKey t values) row

instance (l : Ledger) (t : Table) : DecidablePred (l.Admits t) :=
  fun _ => inferInstanceAs (Decidable (_ ∧ _ ∧ _))

/-- A deletion takes the row with its key value out. -/
def after (c : Catalog) (l : Ledger) : Change → Ledger
  | .insert id values =>
    match c.table? id with
    | some t => if l.Admits t values then (t, values) :: l else l
    | none => l
  | .delete id primary => l.filter fun row => ¬ IsNamed id primary.keyForm row

/-- The rows after a history that begins with none. -/
def of (c : Catalog) (changes : List Change) : Ledger := changes.foldl (after c) []

end Ledger

/-- Whether a store over a catalog holds the rows of a ledger. -/
structure Store.Keeps (c : Catalog) (size : Nat) (s : Store) (rows : Set StoredRow) (l : Ledger) :
    Prop where
  holds : s.Holds rows
  catalog : s.catalog = c
  batchSize : s.batchSize = size
  listed : ∀ t values, (∃ k, ⟨t, k, values⟩ ∈ rows) ↔ (t, values) ∈ l
  once : l.Nodup

namespace Store.Keeps

variable {c : Catalog} {size : Nat} {s : Store} {rows : Set StoredRow} {l : Ledger}

/-- Stored rows and listed rows are found by the same key values. -/
theorem named_iff (keeps : Keeps c size s rows l) {id : TableId} {own : Value} :
    (∃ r ∈ rows, r.segment = .of id own) ↔ ∃ row ∈ l, Ledger.IsNamed id own row := by
  constructor
  · rintro ⟨⟨t, k, values⟩, member, same⟩
    exact ⟨(t, values), (keeps.listed t values).1 ⟨k, member⟩, congrArg Segment.table same,
      Codec.Sortable.encode_eq_iff.1 (congrArg Segment.value same)⟩
  · rintro ⟨⟨t, values⟩, member, rfl, own⟩
    obtain ⟨k, member⟩ := (keeps.listed t values).2 member
    exact ⟨_, member, congrArg (Segment.mk t.id) (Codec.Sortable.encode_eq_iff.2 own)⟩

section Insert

variable (keeps : Keeps c size s rows l) {t : Table} (known : s.catalog.table? t.id = some t)
  {values : List Value}
include keeps known

theorem insert_refused (refused : ¬ l.Admits t values) :
    ∃ error, s.insert t.id values = .error error := by
  have holds := keeps.holds
  by_cases counted : values.length = t.columnCount
  · by_cases fresh : ∀ r ∈ rows, r.segment ≠ .of t.id (primaryKey t values)
    · cases encodable : Codec.Body.encodeRow values with
      | error fault => exact ⟨_, holds.insert_unwritable known counted fresh encodable⟩
      | ok body =>
        refine absurd ⟨counted, congrArg Except.isOk encodable, fun row listed named => ?_⟩ refused
        obtain ⟨r, member, same⟩ := keeps.named_iff.2 ⟨row, listed, named⟩
        exact fresh r member same
    · simp only [not_forall, not_not] at fresh
      obtain ⟨r, member, same⟩ := fresh
      exact ⟨_, holds.insert_duplicate known counted member same⟩
  · exact ⟨_, Holds.insert_count known counted⟩

theorem insert_admitted (admits : l.Admits t values) :
    ∃ key m, s.insert t.id values = .ok (key, s.withContents m) ∧
      (s.withContents m).Holds (withRow s.catalog rows ⟨t, key, values⟩) := by
  obtain ⟨counted, writable, fresh⟩ := admits
  have absent : ∀ r ∈ rows, r.segment ≠ .of t.id (primaryKey t values) := by
    intro r member same
    obtain ⟨row, listed, named⟩ := keeps.named_iff.1 ⟨r, member, same⟩
    exact fresh row listed named
  cases encodable : Codec.Body.encodeRow values with
  | error fault =>
    rw [encodable] at writable
    cases writable
  | ok body =>
    obtain ⟨key, m, _, _, done, holds⟩ := keeps.holds.insert_ok known counted absent encodable
    exact ⟨key, m, done, holds⟩

end Insert

theorem insert (keeps : Keeps c size s rows l) (id : TableId) (values : List Value) :
    ∃ rows', Keeps c size (s.after (.insert id values)) rows' (l.after c (.insert id values)) := by
  have catalog := keeps.catalog
  subst catalog
  rw [Ledger.after, Store.after]
  cases known : s.catalog.table? id with
  | none =>
    rw [Holds.insert_unknown known]
    exact ⟨rows, keeps⟩
  | some t =>
    have number := (keeps.holds.forest.table?_eq_some known).2
    subst number
    by_cases admits : l.Admits t values
    · obtain ⟨key, m, done, holds⟩ := keeps.insert_admitted known admits
      simp only [done, if_pos admits]
      refine ⟨_, holds, rfl, keeps.batchSize, fun t' values' => ?_, ?_⟩
      · rw [mem_withRow_iff, keeps.listed, List.mem_cons, Prod.mk.injEq, or_comm]
      · exact List.nodup_cons.2 ⟨fun listed => admits.2.2 _ listed ⟨rfl, rfl⟩, keeps.once⟩
    · obtain ⟨error, refused⟩ := keeps.insert_refused known admits
      simp only [refused, if_neg admits]
      exact ⟨rows, keeps⟩

theorem delete (keeps : Keeps c size s rows l) (id : TableId) (primary : Value) :
    ∃ rows', Keeps c size (s.after (.delete id primary)) rows' (l.after c (.delete id primary)) := by
  have holds := keeps.holds
  rw [Ledger.after, Store.after]
  have still (missing : ∀ r ∈ rows, r.segment ≠ .of id primary.keyForm) :
      (l.filter fun row => ¬ Ledger.IsNamed id primary.keyForm row) = l := by
    refine List.filter_eq_self.2 fun row listed => decide_eq_true fun named => ?_
    obtain ⟨r, member, same⟩ := keeps.named_iff.2 ⟨row, listed, named⟩
    exact missing r member same
  cases known : s.catalog.table? id with
  | none =>
    rw [Holds.delete_unknown known, still fun r member same => ?_]
    · exact ⟨rows, keeps⟩
    · have found := holds.forest.table?_id (holds.mirrors.valid r member).known
      rw [show r.table.id = id from congrArg Segment.table same, known] at found
      cases found
  | some t =>
    have number := (holds.forest.table?_eq_some known).2
    subst number
    by_cases missing : ∀ r ∈ rows, r.segment ≠ .of t.id primary.keyForm
    · rw [holds.delete_missing known missing, still missing]
      exact ⟨rows, keeps⟩
    · simp only [not_forall, not_not] at missing
      obtain ⟨r, member, same⟩ := missing
      obtain ⟨m, done, holds'⟩ := holds.delete_stored known member same
      rw [done]
      refine ⟨_, holds', keeps.catalog, keeps.batchSize, fun t' values => ?_,
        keeps.once.filter _⟩
      have apart (k : RowKey) (member' : ⟨t', k, values⟩ ∈ rows) :
          (⟨t', k, values⟩ : StoredRow) ≠ r ↔
            ¬ Ledger.IsNamed t.id primary.keyForm (t', values) := by
        refine not_congr ⟨?_, fun named => ?_⟩
        · rintro rfl
          exact ⟨congrArg Segment.table same,
            Codec.Sortable.encode_eq_iff.1 (congrArg Segment.value same)⟩
        · refine holds.mirrors.distinct _ member' r member (Eq.trans ?_ same.symm)
          rw [StoredRow.segment, StoredRow.own, named.1, Segment.of, Segment.of,
            Codec.Sortable.encode_eq_iff.2 named.2]
      rw [List.mem_filter, decide_eq_true_iff, ← keeps.listed]
      constructor
      · rintro ⟨k, member', different⟩
        exact ⟨⟨k, member'⟩, (apart k member').1 different⟩
      · rintro ⟨⟨k, member'⟩, unnamed⟩
        exact ⟨k, member', (apart k member').2 unnamed⟩

theorem run (keeps : Keeps c size s rows l) (changes : List Change) :
    ∃ rows', Keeps c size (s.run changes) rows' (changes.foldl (Ledger.after c) l) := by
  induction changes generalizing s rows l with
  | nil => exact ⟨rows, keeps⟩
  | cons change rest ih =>
    cases change with
    | insert id values =>
      obtain ⟨rows', keeps'⟩ := keeps.insert id values
      exact ih keeps'
    | delete id primary =>
      obtain ⟨rows', keeps'⟩ := keeps.delete id primary
      exact ih keeps'

end Store.Keeps

namespace Store

section Run

variable {c : Catalog} (forest : c.Forest) (plain : c.Plain) (config : Storage.EngineConfig)
  (batchSize : Nat)
include forest plain

theorem keeps_fresh : Keeps c (max batchSize 1) (fresh c config batchSize) ∅ [] :=
  ⟨holds_fresh forest plain config batchSize, rfl, rfl, by simp, .nil⟩

/-- A store holds the rows of its history. -/
theorem keeps_run (changes : List Change) : ∃ rows,
    Keeps c (max batchSize 1) ((fresh c config batchSize).run changes) rows (Ledger.of c changes) :=
  (keeps_fresh forest plain config batchSize).run changes

/-- What a history leads to holds its own rows, reads some at a time and keeps its catalog. -/
theorem holds_of_run {changes : List Change} {s : Store}
    (reached : (fresh c config batchSize).run changes = s) :
    s.Holds s.rows ∧ 1 ≤ s.batchSize ∧ s.catalog = c := by
  obtain ⟨rows, keeps⟩ := keeps_run forest plain config batchSize changes
  rw [reached] at keeps
  have holds := keeps.holds
  obtain rfl := holds.rows_eq
  refine ⟨holds, ?_, keeps.catalog⟩
  rw [keeps.batchSize]
  exact Nat.le_max_right batchSize 1

end Run

/-- Every run keeps the keyspaces of a store consistent, and leaves the rows that were inserted and neither
refused nor deleted again. -/
theorem consistent_run {declarations : List Declaration} {c : Catalog}
    (accepted : Catalog.ofDeclarations declarations = .ok c) (plain : c.Plain)
    (config : Storage.EngineConfig) (batchSize : Nat) (changes : List Change) :
    ((fresh c config batchSize).run changes).Consistent ∧
      ∀ t values, (∃ key, ((fresh c config batchSize).run changes).HasRow t key values) ↔
        (t, values) ∈ Ledger.of c changes := by
  have forest := Catalog.forest_of_declarations accepted
  obtain ⟨rows, keeps⟩ := keeps_run forest plain config batchSize changes
  refine ⟨keeps.holds.consistent, fun t values => ?_⟩
  rw [← keeps.listed]
  exact exists_congr fun _ => keeps.holds.hasRow_iff

/-- An item that waits for its order, the order, a refused copy, and the order gone again. -/
theorem consistent_run_shop : Catalog.ofDeclarations shopDeclarations = .ok shop ∧ shop.Plain ∧
    ((fresh shop .standard 256).run
      [.insert ⟨3⟩ [.int 7, .int 5], .insert ⟨2⟩ [.int 5, .null], .insert ⟨2⟩ [.int 5, .int 1],
        .delete ⟨2⟩ (.int 5)]).Consistent ∧
    ∀ t values, (∃ key, ((fresh shop .standard 256).run
        [.insert ⟨3⟩ [.int 7, .int 5], .insert ⟨2⟩ [.int 5, .null], .insert ⟨2⟩ [.int 5, .int 1],
          .delete ⟨2⟩ (.int 5)]).HasRow t key values) ↔
      (t, values) ∈ [(shopItem, [.int 7, .int 5])] :=
  ⟨shop_accepted, shop_plain, consistent_run shop_accepted shop_plain .standard 256 _⟩

end Store

end Interleave
