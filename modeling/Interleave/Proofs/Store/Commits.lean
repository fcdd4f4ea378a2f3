import Interleave.Proofs.Catalog.Forest
import Interleave.Proofs.Store.Traversals

/-!
Traversals whose store is written to between their steps. Main statement: whatever is committed meanwhile,
a traversal takes keys in ascending order and within its ends, each with the value that its batch was read
with, and by its end it has taken every key that was there all the time.
-/

namespace Interleave

open Storage (ByteMap Bound Entry Engine StorageError Transaction)
open Storage.Layout (IsPlain)

namespace Storage

inductive Write where
  | put (table : String) (key value : Bytes)
  | delete (table : String) (key : Bytes)

def Write.applyTo (tx : Transaction) : Write → Except StorageError Transaction
  | put table key value => tx.put table key value
  | delete table key => (tx.delete table key).map (·.2)

/-- The engine after a write transaction with certain writes. -/
def Engine.write (e : Engine) (writes : List Write) : Except StorageError Engine :=
  (writes.foldlM Write.applyTo e.beginWrite).map e.commit

theorem Write.applyTo_ok (w : Write) {tx : Transaction} (writable : tx.readOnly = false) :
    ∃ contents, w.applyTo tx = .ok { tx with contents } := by
  cases w with
  | put table key value => exact ⟨_, by rw [applyTo, Transaction.put, writable]; rfl⟩
  | delete table key => exact ⟨_, by rw [applyTo, Transaction.delete, writable]; rfl⟩

/-- A write transaction is never refused. -/
theorem Engine.write_ok (e : Engine) (writes : List Write) :
    ∃ committed, e.write writes = .ok { e with committed } := by
  have written (tx : Transaction) (writable : tx.readOnly = false) :
      ∃ contents, writes.foldlM Write.applyTo tx = .ok { tx with contents } := by
    induction writes generalizing tx with
    | nil => exact ⟨tx.contents, rfl⟩
    | cons w rest ih =>
      obtain ⟨contents, first⟩ := w.applyTo_ok writable
      rw [List.foldlM_cons, first]
      exact ih { tx with contents } writable
  obtain ⟨contents, written⟩ := written e.beginWrite rfl
  exact ⟨contents, by rw [write, written]; rfl⟩

end Storage

namespace Traversal

/-- Whether a key can be taken: its columns and its row key read. -/
def KeyReads (kind : EntryKind) (key : Bytes) : Prop :=
  ∃ values bytes k, splitKey kind key = (values, .ok bytes) ∧ RowKey.ofBytes bytes = .ok k

theorem take_keyReads (t : Traversal) (e : Entry) :
    ((t.take e).1 = .ok true ↔ KeyReads t.kind e.1) ∧
      ((t.take e).1 = .ok true → (t.take e).2.current = some e) := by
  cases split : splitKey t.kind e.1 with
  | mk values rest =>
    cases rest with
    | error fault => simp [take, KeyReads, split]
    | ok bytes =>
      cases read : RowKey.ofBytes bytes <;> simp [take, KeyReads, split, RowKey.reset, read]

section Fill

variable {s : Store} {t : Traversal} (plain : IsPlain t.keyspace) (batches : 1 ≤ s.engine.cursorBatch)
include plain batches

theorem fill_sorted : ((t.fill s).batch.map (·.1)).Pairwise (· < ·) := by
  rw [(fill_spec plain batches).1]
  exact List.pairwise_map.2 ((s.contents.between_sorted _ _ _).sublist (List.take_sublist _ _))

theorem mem_fill {e : Entry} (member : e ∈ (t.fill s).batch) :
    s.contents.getIn? t.keyspace e.1 = some e.2 ∧ t.resume.below e.1 = true ∧
      t.stop.above e.1 = true := by
  rw [(fill_spec plain batches).1] at member
  exact ByteMap.mem_between_iff.1 (List.mem_of_mem_take member)

/-- An entry that is left is in the new batch or is left by it. -/
theorem mem_fill_or_after (size : 1 ≤ t.batchSize) {e : Entry}
    (stored : s.contents.getIn? t.keyspace e.1 = some e.2) (later : t.resume.below e.1 = true)
    (upTo : t.stop.above e.1 = true) :
    e ∈ (t.fill s).batch ∨ (t.fill s).hasMore = true ∧ (t.fill s).resume.below e.1 = true := by
  obtain ⟨batch, going⟩ := fill_spec (s := s) plain batches
  have member : e ∈ s.contents.between t.keyspace t.resume t.stop :=
    ByteMap.mem_between_iff.2 ⟨stored, later, upTo⟩
  rw [← List.take_append_drop t.batchSize (s.contents.between t.keyspace t.resume t.stop),
    List.mem_append, ← batch] at member
  refine member.imp_right fun after => ?_
  have some := List.length_pos_of_mem after
  rw [List.length_drop] at some
  have more := going.2 (by omega)
  obtain ⟨last, _, resume, others⟩ := fill_hasMore plain batches size more
  rw [← others, ByteMap.mem_between_iff] at after
  rw [resume]
  exact ⟨more, after.2.1⟩

end Fill

end Traversal

/-- A traversal and the store that it shares with others. The entries of its batch were read from
`source`. -/
structure Session where
  store : Store
  traversal : Traversal
  source : ByteMap

/-- What a traversal did at a step. It took `popped` from a batch that was read from `source`, and stands
on `shown`. -/
structure Advance where
  answer : Except QueryError Bool
  popped : Option Entry
  shown : Option Entry
  source : ByteMap
  committed : ByteMap

inductive Event where
  | commit (writes : List Storage.Write)
  | advance

namespace Session

/-- A traversal between two ends that has not started. -/
def start (s : Store) (keyspace : String) (kind : EntryKind) (low high : Bound) : Session :=
  ⟨s, .between s keyspace kind (some (low, high)), s.contents⟩

def commit (x : Session) (writes : List Storage.Write) : Session :=
  match x.store.engine.write writes with
  | .ok engine => { x with store := { x.store with engine } }
  | .error _ => x

/-- Before a traversal takes an entry it reads a batch if it has none. -/
def ready (x : Session) : Session :=
  if x.traversal.batch.isEmpty && x.traversal.hasMore then
    { x with traversal := x.traversal.fill x.store, source := x.store.contents }
  else x

def advance (x : Session) : Advance × Session :=
  let (answer, traversal) := x.traversal.advance x.store
  (⟨answer, x.ready.traversal.batch.head?, traversal.current, x.ready.source, x.store.contents⟩,
    { x.ready with traversal })

def advances : Session → List Event → List Advance
  | _, [] => []
  | x, .commit writes :: rest => (x.commit writes).advances rest
  | x, .advance :: rest => x.advance.1 :: x.advance.2.advances rest

end Session

/-- The keys that were taken, one after another. -/
def Advance.keys (advances : List Advance) : List Bytes :=
  advances.filterMap fun a => a.popped.map (·.1)

/-- Whether a step does right by the entry that it takes: the entry is within the ends and has the value
that it had when its batch was read, and the traversal stands on it if its key reads. Only a step that
takes none ends the traversal. -/
structure Advance.Sound (keyspace : String) (kind : EntryKind) (low high : Bound) (a : Advance) : Prop where
  ends : a.answer = .ok false ↔ a.popped = none
  inside {e : Entry} (popped : a.popped = some e) : low.below e.1 = true ∧ high.above e.1 = true
  stored {e : Entry} (popped : a.popped = some e) : a.source.getIn? keyspace e.1 = some e.2
  reads {e : Entry} (popped : a.popped = some e) : a.answer = .ok true ↔ Traversal.KeyReads kind e.1
  shows (taken : a.answer = .ok true) : a.shown = a.popped

namespace Session

variable {keyspace : String} {kind : EntryKind} {low high : Bound}

/-- What holds of a traversal that has taken certain keys. A key that is `Lasting` was there at every
step. -/
structure Stands (keyspace : String) (kind : EntryKind) (low high : Bound) (seen : List Bytes)
    (Lasting : Bytes → Prop) (x : Session) : Prop where
  space : x.traversal.keyspace = keyspace
  entries : x.traversal.kind = kind
  stop : x.traversal.stop = high
  batches : 1 ≤ x.traversal.batchSize
  batches' : 1 ≤ x.store.engine.cursorBatch
  sorted : (seen ++ x.traversal.batch.map (·.1)).Pairwise (· < ·)
  inside : ∀ e ∈ x.traversal.batch, low.below e.1 = true ∧ high.above e.1 = true
  stored : ∀ e ∈ x.traversal.batch, x.source.getIn? keyspace e.1 = some e.2
  past : x.traversal.hasMore = true → ∀ k, x.traversal.resume.below k = true →
    low.below k = true ∧ ∀ k' ∈ seen ++ x.traversal.batch.map (·.1), k' < k
  whole : ∀ k, Lasting k → low.below k = true → high.above k = true →
    k ∈ seen ++ x.traversal.batch.map (·.1) ∨
      x.traversal.hasMore = true ∧ x.traversal.resume.below k = true

variable {seen : List Bytes} {Lasting : Bytes → Prop} {x : Session}

theorem stands_start {s : Store} (batches : 1 ≤ s.batchSize) (batches' : 1 ≤ s.engine.cursorBatch)
    (keyspace : String) (kind : EntryKind) (low high : Bound) :
    (start s keyspace kind low high).Stands keyspace kind low high [] fun _ => True :=
  ⟨rfl, rfl, rfl, batches, batches', .nil, by simp [start, Traversal.between],
    by simp [start, Traversal.between], fun _ k after => ⟨after, by simp [start, Traversal.between]⟩,
    fun k _ after _ => .inr ⟨rfl, after⟩⟩

/-- A commit leaves a traversal alone. -/
theorem Stands.commit (stands : x.Stands keyspace kind low high seen Lasting)
    (writes : List Storage.Write) :
    (x.commit writes).Stands keyspace kind low high seen Lasting := by
  obtain ⟨committed, written⟩ := x.store.engine.write_ok writes
  rw [Session.commit, written]
  exact { stands with }

section Fill

variable (stands : x.Stands keyspace kind low high seen Lasting) (plain : IsPlain keyspace)
  (empty : x.traversal.batch = []) (more : x.traversal.hasMore = true)
include stands plain empty more

theorem Stands.mem_fill {e : Entry} (member : e ∈ (x.traversal.fill x.store).batch) :
    x.store.contents.getIn? keyspace e.1 = some e.2 ∧ low.below e.1 = true ∧ high.above e.1 = true ∧
      ∀ k ∈ seen, k < e.1 := by
  obtain ⟨stored, after, upTo⟩ :=
    Traversal.mem_fill (stands.space.symm ▸ plain) stands.batches' member
  obtain ⟨first, later⟩ := stands.past more e.1 after
  rw [empty, List.map_nil, List.append_nil] at later
  exact ⟨stands.space ▸ stored, first, stands.stop ▸ upTo, later⟩

theorem Stands.fill_sorted :
    (seen ++ (x.traversal.fill x.store).batch.map (·.1)).Pairwise (· < ·) := by
  have front := stands.sorted
  rw [empty, List.map_nil, List.append_nil] at front
  refine List.pairwise_append.2
    ⟨front, Traversal.fill_sorted (stands.space.symm ▸ plain) stands.batches', ?_⟩
  intro k earlier k' member
  obtain ⟨e, taken, rfl⟩ := List.mem_map.1 member
  exact (stands.mem_fill plain empty more taken).2.2.2 k earlier

/-- What comes after a batch comes after its last entry. -/
theorem Stands.fill_past (further : (x.traversal.fill x.store).hasMore = true) {k : Bytes}
    (after : (x.traversal.fill x.store).resume.below k = true) :
    low.below k = true ∧ ∀ k' ∈ seen ++ (x.traversal.fill x.store).batch.map (·.1), k' < k := by
  obtain ⟨last, found, resume, _⟩ :=
    Traversal.fill_hasMore (stands.space.symm ▸ plain) stands.batches' stands.batches further
  have after : last.1 < k := by
    rw [resume] at after
    exact Bound.below_excluded.1 after
  obtain ⟨_, first, _⟩ := stands.mem_fill plain empty more (List.mem_of_getLast? found)
  refine ⟨low.below_mono after first, fun k' earlier => ?_⟩
  have ascending := stands.fill_sorted plain empty more
  obtain ⟨others, split⟩ := List.getLast?_eq_some_iff.1 found
  rw [split, List.map_append, ← List.append_assoc] at ascending earlier
  rcases List.mem_append.1 earlier with earlier | same
  · exact List.lt_trans ((List.pairwise_append.1 ascending).2.2 k' earlier last.1 (by simp)) after
  · obtain rfl : k' = last.1 := by simpa using same
    exact after

omit more in
theorem Stands.fill_whole {k : Bytes} (lasting : Lasting k)
    (present : (x.store.contents.getIn? keyspace k).isSome = true) (first : low.below k = true)
    (upTo : high.above k = true) :
    k ∈ seen ++ (x.traversal.fill x.store).batch.map (·.1) ∨
      (x.traversal.fill x.store).hasMore = true ∧ (x.traversal.fill x.store).resume.below k = true := by
  obtain ⟨value, present⟩ := Option.isSome_iff_exists.1 present
  rw [← stands.space] at present
  rw [← stands.stop] at upTo
  rcases stands.whole k lasting first (stands.stop ▸ upTo) with taken | ⟨_, later⟩
  · rw [empty, List.map_nil, List.append_nil] at taken
    exact .inl (List.mem_append_left _ taken)
  · have left := @Traversal.mem_fill_or_after x.store x.traversal (stands.space.symm ▸ plain)
      stands.batches' stands.batches (k, value) present later upTo
    exact left.imp_left fun taken => List.mem_append_right _ (List.mem_map_of_mem taken)

/-- A new batch goes on where the one before ended. -/
theorem Stands.fill :
    Stands keyspace kind low high seen
        (fun k => Lasting k ∧ (x.store.contents.getIn? keyspace k).isSome = true)
        { x with traversal := x.traversal.fill x.store, source := x.store.contents } ∧
      ((x.traversal.fill x.store).batch = [] → (x.traversal.fill x.store).hasMore = false) := by
  have within {e : Entry} := @Stands.mem_fill _ _ _ _ _ _ _ stands plain empty more e
  refine ⟨?_, fun none => Bool.eq_false_iff.2 fun further => ?_⟩
  · exact { stands with
      sorted := stands.fill_sorted plain empty more
      inside := fun e member => ⟨(within member).2.1, (within member).2.2.1⟩
      stored := fun e member => (within member).1
      past := fun further _ => stands.fill_past plain empty more further
      whole := fun _ lasting => stands.fill_whole plain empty lasting.1 lasting.2 }
  · obtain ⟨last, found, _⟩ :=
      Traversal.fill_hasMore (stands.space.symm ▸ plain) stands.batches' stands.batches further
    rw [none] at found
    cases found

end Fill

theorem Stands.ready (stands : x.Stands keyspace kind low high seen Lasting) (plain : IsPlain keyspace) :
    x.ready.Stands keyspace kind low high seen
        (fun k => Lasting k ∧ (x.store.contents.getIn? keyspace k).isSome = true) ∧
      (x.ready.traversal.batch = [] → x.ready.traversal.hasMore = false) := by
  cases filled : x.traversal.batch.isEmpty && x.traversal.hasMore with
  | true =>
    obtain ⟨empty, more⟩ := Bool.and_eq_true_iff.1 filled
    rw [Session.ready, filled, if_pos rfl]
    exact stands.fill plain (List.isEmpty_iff.1 empty) more
  | false =>
    rw [Session.ready, filled, if_neg Bool.false_ne_true]
    refine ⟨{ stands with whole := fun k lasting => stands.whole k lasting.1 }, fun none => ?_⟩
    rwa [none, List.isEmpty_nil, Bool.true_and] at filled

theorem advance_eq (x : Session) : x.traversal.advance x.store =
    match x.ready.traversal.batch with
    | [] => (.ok false, { x.ready.traversal with current := none })
    | e :: batch => { x.ready.traversal with batch }.take e := by
  rw [ready, apply_ite Session.traversal]
  rfl

/-- A step takes the next entry, and all lasting keys are taken when there is none. -/
theorem Stands.advance (stands : x.Stands keyspace kind low high seen Lasting)
    (plain : IsPlain keyspace) :
    x.advance.1.Sound keyspace kind low high ∧
      x.advance.2.Stands keyspace kind low high (seen ++ Advance.keys [x.advance.1])
        (fun k => Lasting k ∧ (x.advance.1.committed.getIn? keyspace k).isSome = true) ∧
      (x.advance.1.answer = .ok false → ∀ k, Lasting k →
        (x.advance.1.committed.getIn? keyspace k).isSome = true → low.below k = true →
          high.above k = true → k ∈ seen) := by
  obtain ⟨ready, spent⟩ := stands.ready plain
  have next := advance_eq x
  simp only [Session.advance]
  cases held : x.ready.traversal.batch with
  | nil =>
    rw [held] at next
    rw [next]
    refine ⟨⟨by simp, by simp, by simp, by simp, by simp⟩, ?_, fun _ k lasting present first upTo => ?_⟩
    · show Stands keyspace kind low high (seen ++ []) _ _
      rw [List.append_nil]
      exact { ready with }
    · have whole := ready.whole k ⟨lasting, present⟩ first upTo
      rw [spent held, held, List.map_nil, List.append_nil] at whole
      exact whole.resolve_right fun later => Bool.false_ne_true later.1
  | cons e batch =>
    rw [held] at next
    obtain ⟨reads, stands'⟩ := Traversal.take_keyReads { x.ready.traversal with batch } e
    obtain ⟨answer, values, key, current, taken, going⟩ :=
      Traversal.take_spec { x.ready.traversal with batch } e
    rw [taken] at reads stands'
    rw [next.trans taken]
    have inside := ready.inside
    have stored := ready.stored
    have sorted := ready.sorted
    have past := ready.past
    have whole := ready.whole
    have split : seen ++ (e :: batch).map (·.1) = (seen ++ [e.1]) ++ batch.map (·.1) := by simp
    rw [held] at inside stored
    rw [held, split] at sorted past whole
    refine ⟨⟨by simp [going], ?_, ?_, ?_, stands'⟩, ?_, fun ended => absurd ended going⟩
    · rintro _ ⟨⟩
      exact inside e List.mem_cons_self
    · rintro _ ⟨⟩
      exact stored e List.mem_cons_self
    · rintro _ ⟨⟩
      rw [reads, ready.entries]
    · exact { ready with
        sorted, past, whole
        inside := fun e member => inside e (List.mem_cons_of_mem _ member)
        stored := fun e member => stored e (List.mem_cons_of_mem _ member) }

/-- What a traversal that has taken certain keys does from there on. -/
theorem Stands.advances (stands : x.Stands keyspace kind low high seen Lasting)
    (plain : IsPlain keyspace) (events : List Event) :
    (seen ++ Advance.keys (x.advances events)).Pairwise (· < ·) ∧
      (∀ a ∈ x.advances events, a.Sound keyspace kind low high) ∧
      ∀ before last after, x.advances events = before ++ last :: after → last.answer = .ok false →
        ∀ k, Lasting k → low.below k = true → high.above k = true →
          (∀ a ∈ before ++ [last], (a.committed.getIn? keyspace k).isSome = true) →
            k ∈ seen ++ Advance.keys before := by
  induction events generalizing x seen Lasting with
  | nil =>
    refine ⟨?_, by simp [Session.advances], fun before last after cut => ?_⟩
    · simpa [Session.advances, Advance.keys] using (List.pairwise_append.1 stands.sorted).1
    · simp [Session.advances] at cut
  | cons event rest ih =>
    cases event with
    | commit writes => exact ih (stands.commit writes)
    | advance =>
      obtain ⟨sound, stands', ended⟩ := stands.advance plain
      obtain ⟨sorted, sounds, whole⟩ := ih stands'
      have keys (others : List Advance) : seen ++ Advance.keys (x.advance.1 :: others) =
          seen ++ Advance.keys [x.advance.1] ++ Advance.keys others := by
        rw [List.append_assoc, Advance.keys, Advance.keys, Advance.keys, ← List.filterMap_append,
          List.singleton_append]
      refine ⟨?_, ?_, ?_⟩
      · rw [Session.advances, keys]
        exact sorted
      · rw [Session.advances]
        exact List.forall_mem_cons.2 ⟨sound, sounds⟩
      · intro before last after cut finished k lasting first upTo present
        rw [Session.advances] at cut
        cases before with
        | nil =>
          obtain ⟨rfl, _⟩ := List.cons.inj cut
          exact List.mem_append_left _ (ended finished k lasting (present _ (by simp)) first upTo)
        | cons a before =>
          obtain ⟨rfl, cut'⟩ := List.cons.inj cut
          rw [keys]
          exact whole before last after cut' finished k ⟨lasting, present _ (by simp)⟩ first upTo
            fun a member => present a (List.mem_cons_of_mem _ member)

end Session

open Session

/-- Whatever is committed between the steps of a traversal, it takes keys in ascending order and does right
by each; and every key within its ends that was there at every step is taken once by the end. -/
theorem Traversal.takes_under_commits {s : Store} {keyspace : String} (plain : IsPlain keyspace)
    (batches : 1 ≤ s.batchSize) (batches' : 1 ≤ s.engine.cursorBatch) (kind : EntryKind)
    (low high : Bound) (events : List Event) :
    (Advance.keys ((start s keyspace kind low high).advances events)).Pairwise (· < ·) ∧
      (∀ a ∈ (start s keyspace kind low high).advances events, a.Sound keyspace kind low high) ∧
      ∀ before last after,
        (start s keyspace kind low high).advances events = before ++ last :: after →
        last.answer = .ok false →
        ∀ k, low.below k = true → high.above k = true →
          (∀ a ∈ before ++ [last], (a.committed.getIn? keyspace k).isSome = true) →
            (Advance.keys before).count k = 1 := by
  obtain ⟨sorted, sounds, whole⟩ :=
    (stands_start batches batches' keyspace kind low high).advances plain events
  refine ⟨sorted, sounds, fun before last after cut finished k first upTo present => ?_⟩
  have taken := whole before last after cut finished k trivial first upTo present
  rw [List.nil_append] at sorted taken
  rw [cut, Advance.keys, List.filterMap_append] at sorted
  have distinct : (Advance.keys before).Nodup :=
    (List.pairwise_append.1 sorted).1.imp fun {a b} (less : a < b) (same : a = b) =>
      List.lt_irrefl a (same.symm ▸ less)
  exact List.count_eq_one_of_mem distinct taken

def shopCustomerKey (id : Int64) : Bytes := (RowKey.ofSegments [(⟨1⟩, .int id)]).bytes

/-- Two customers are read at once, the second is removed and another one comes in before the fourth, which
is there all the time. -/
def shopEvents : List Event :=
  [.commit [.put "group.shop" (shopCustomerKey 1) [], .put "group.shop" (shopCustomerKey 2) [],
      .put "group.shop" (shopCustomerKey 4) []],
    .advance,
    .commit [.delete "group.shop" (shopCustomerKey 2), .put "group.shop" (shopCustomerKey 3) []],
    .advance, .advance, .commit [.delete "group.shop" (shopCustomerKey 3)], .advance, .advance]

/-- A store that reads two entries at a time. -/
def shopStore : Store := ⟨shop, .create ⟨some 1, none⟩, 2⟩

theorem Traversal.takes_under_commits_shop :
    IsPlain "group.shop" ∧ 1 ≤ shopStore.batchSize ∧ 1 ≤ shopStore.engine.cursorBatch ∧
      (Advance.keys ((start shopStore "group.shop" .row .unbounded .unbounded).advances
        shopEvents)).Pairwise (· < ·) ∧
      Advance.keys ((start shopStore "group.shop" .row .unbounded .unbounded).advances shopEvents) =
        [shopCustomerKey 1, shopCustomerKey 2, shopCustomerKey 3, shopCustomerKey 4] ∧
      (Advance.keys (((start shopStore "group.shop" .row .unbounded .unbounded).advances
        shopEvents).take 4)).count (shopCustomerKey 4) = 1 := by
  have plain : IsPlain "group.shop" := by
    unfold IsPlain
    decide +kernel
  have batches : 1 ≤ shopStore.batchSize := by decide
  have batches' : 1 ≤ shopStore.engine.cursorBatch := by decide
  obtain ⟨sorted, _, whole⟩ :=
    Traversal.takes_under_commits plain batches batches' .row .unbounded .unbounded shopEvents
  refine ⟨plain, batches, batches', sorted, by decide +kernel, ?_⟩
  exact whole _ _ [] rfl rfl (shopCustomerKey 4) rfl rfl (by decide +kernel)

end Interleave
