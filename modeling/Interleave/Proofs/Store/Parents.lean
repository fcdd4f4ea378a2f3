import Interleave.Proofs.Codec.KeyForms
import Interleave.Proofs.Store.Ancestry
import Interleave.Proofs.Store.Arrivals

/-!
Foreign keys and the rows that they name. A row goes below the row of the parent's table whose key value
keys as its foreign key does, whichever of the two comes first. Main statement: the two key alike when
they compare equal, but an integer with too many bits for a float keys apart from the float nearest
to it, and no row that asks with the float goes below the row with the integer.
-/

namespace Interleave

open Storage (ByteMap EngineConfig)

/-- A row that waits goes below a new row of the parent's table exactly when its foreign key names it. -/
theorem Seat.isAbove_shift_iff {c : Catalog} {m m' : ByteMap} {rows : Set StoredRow}
    (forest : c.Forest) (mirrors : Mirrors c m rows) {n r : StoredRow} (valid : n.Valid c)
    (fresh : ∀ r ∈ rows, r.segment ≠ n.segment) (mirrors' : Mirrors c m' (withRow c rows n))
    (seat : Seat c rows n.table n.values n.key) (member : r ∈ rows)
    (seat' : Seat c rows r.table r.values r.key) {column : Nat}
    (link : c.Links n.table r.table column) :
    n.key.isAbove (r.shift (Store.orphanKey c n.table.id n.own) n.key).key = true ↔
      n.segment = .of n.table.id (Store.foreignKey ⟨n.table.id, column⟩ r.values) := by
  have apart : n.table.parent = none ∨ (n.own = .null → ¬ c.FarAbove n.table r.table) :=
    .inr fun _ => forest.not_farAbove_of_links link
  have moved := seat.withRow_old forest mirrors valid fresh apart member seat'
  exact moved.isAbove_iff forest mirrors' (mem_withRow_new forest valid) link

namespace Store

/-- A foreign key names a row exactly when it compares equal to the row's key value and the two meet
without rounding. -/
theorem segment_eq_iff {p : StoredRow} {column : Nat} {values : List Value} {primary foreign : Value}
    (own : p.values[p.table.primaryKey]? = some primary) (asked : values[column]? = some foreign)
    (number : primary.isNaN = false) (number' : foreign.isNaN = false) :
    p.segment = .of p.table.id (foreignKey ⟨p.table.id, column⟩ values) ↔
      primary.compare? foreign = some .eq ∧ primary.MeetsExactly foreign := by
  rw [← Value.encode_keyForm_eq_iff number number', StoredRow.segment, StoredRow.own, primaryKey, own,
    foreignKey, asked, Segment.of, Segment.of, Segment.mk.injEq]
  exact and_iff_right rfl

section Arrivals

variable {s : Store} {rows : Set StoredRow} (holds : s.Holds rows) {p t : Table} {column : Nat}
  (known : t ∈ s.catalog.tables) (link : s.catalog.Links p t column) {values others : List Value}
  {key : RowKey} {s' : Store} (inserted : s.insert t.id values = .ok (key, s'))
include holds known link inserted

/-- A new row goes below a stored row of the parent's table exactly when its foreign key names it. -/
theorem Holds.isAbove_new_iff {k : RowKey} (stored : ⟨p, k, others⟩ ∈ rows) :
    k.isAbove key = true ↔ (⟨p, k, others⟩ : StoredRow).segment =
      .of p.id (foreignKey ⟨p.id, column⟩ values) := by
  obtain ⟨t', _, found, _, seat, _⟩ := holds.of_insert inserted
  obtain rfl := Option.some.inj (found.symm.trans (holds.forest.table?_id known))
  exact seat.isAbove_iff holds.forest holds.mirrors stored link

/-- A row of the parent's table that comes later takes the row below it exactly when its foreign key
names it. -/
theorem Holds.isAbove_later_iff {above : RowKey} {s'' : Store}
    (inserted' : s'.insert p.id others = .ok (above, s'')) :
    ∃ r ∈ s''.rows, r.table = t ∧ r.values = values ∧
      (above.isAbove r.key = true ↔ (⟨p, above, others⟩ : StoredRow).segment =
        .of p.id (foreignKey ⟨p.id, column⟩ values)) := by
  have forest := holds.forest
  obtain ⟨t', m, found, _, seat, valid, fresh, rfl, holds'⟩ := holds.of_insert inserted
  obtain rfl := Option.some.inj (found.symm.trans (forest.table?_id known))
  obtain ⟨p', m', found', _, seat', valid', fresh', rfl, holds''⟩ := holds'.of_insert inserted'
  obtain rfl := Option.some.inj (found'.symm.trans (forest.table?_id link.1))
  have member : (⟨t', key, values⟩ : StoredRow) ∈ withRow s.catalog rows ⟨t', key, values⟩ :=
    mem_withRow_new forest valid
  have settled := seat.withRow_new forest holds.mirrors valid fresh
  rw [holds''.rows_eq]
  exact ⟨_, shift_mem_withRow member, StoredRow.table_shift, StoredRow.values_shift,
    Seat.isAbove_shift_iff forest holds'.mirrors valid' fresh' holds''.mirrors seat' member settled
      link⟩

end Arrivals

/-- Values key alike exactly when they compare equal without rounding. So a row goes below a stored row of
the parent's table, and below one that comes later, exactly when its foreign key and that row's key value
compare equal without rounding. -/
theorem foreignKey_finds_iff {declarations : List Declaration} {c : Catalog}
    (accepted : Catalog.ofDeclarations declarations = .ok c) (plain : c.Plain) (config : EngineConfig)
    (batchSize : Nat) {changes : List Change} {s : Store}
    (reached : (fresh c config batchSize).run changes = s) :
    (∀ v w : Value, v.isNaN = false → w.isNaN = false →
      (Codec.Sortable.encode v.keyForm = Codec.Sortable.encode w.keyForm ↔
        v.compare? w = some .eq ∧ v.MeetsExactly w)) ∧
    ∀ p t column, t ∈ c.tables → c.Links p t column →
      ∀ values key s', s.insert t.id values = .ok (key, s') →
      ∀ foreign, values[column]? = some foreign → foreign.isNaN = false →
      ∀ others primary, others[p.primaryKey]? = some primary → primary.isNaN = false →
        (∀ k, ⟨p, k, others⟩ ∈ s.rows → (k.isAbove key = true ↔
          primary.compare? foreign = some .eq ∧ primary.MeetsExactly foreign)) ∧
        ∀ above s'', s'.insert p.id others = .ok (above, s'') →
          ∃ r ∈ s''.rows, r.table = t ∧ r.values = values ∧ (above.isAbove r.key = true ↔
            primary.compare? foreign = some .eq ∧ primary.MeetsExactly foreign) := by
  have forest := Catalog.forest_of_declarations accepted
  obtain ⟨holds, _, catalog⟩ := holds_of_run forest plain config batchSize reached
  subst catalog
  refine ⟨fun v w number number' => Value.encode_keyForm_eq_iff number number', ?_⟩
  intro p t column known link values key s' inserted foreign asked number others primary own number'
  have named (k : RowKey) := @segment_eq_iff ⟨p, k, others⟩ _ _ _ _ own asked number' number
  refine ⟨fun k stored => ?_, fun above s'' inserted' => ?_⟩
  · exact (holds.isAbove_new_iff known link inserted stored).trans (named k)
  · obtain ⟨r, member, table, same, below⟩ :=
      holds.isAbove_later_iff known link inserted inserted'
    exact ⟨r, member, table, same, below.trans (named above)⟩

/-- A store with one customer, whose number is an integer. -/
def oneCustomer (n : Int64) : Store :=
  (fresh shop .standard 256).run [.insert ⟨1⟩ [.int n, .text "ann"]]

/-- An order asks with a float for the customer that is there, and does not go below one that comes
later. -/
theorem foreignKey_finds_shop : Catalog.ofDeclarations shopDeclarations = .ok shop ∧ shop.Plain ∧
    ⟨shopCustomer, RowKey.empty.push ⟨1⟩ (.int 1), [.int 1, .text "ann"]⟩ ∈ (oneCustomer 1).rows ∧
    ∃ s' s'', (oneCustomer 1).insert ⟨2⟩ [.int 11, .float ⟨0x3ff0000000000000⟩] =
        .ok ((RowKey.empty.push ⟨1⟩ (.int 1)).push ⟨2⟩ (.int 11), s') ∧
      s'.insert ⟨1⟩ [.int 2, .text "bob"] = .ok (RowKey.empty.push ⟨1⟩ (.int 2), s'') ∧
      (Value.int 1).MeetsExactly (.float ⟨0x3ff0000000000000⟩) ∧
      ∃ r ∈ s''.rows, r.table = shopOrder ∧ r.values = [.int 11, .float ⟨0x3ff0000000000000⟩] ∧
        (RowKey.empty.push ⟨1⟩ (.int 2)).isAbove r.key = false := by
  have stored : ⟨shopCustomer, RowKey.empty.push ⟨1⟩ (.int 1), [.int 1, .text "ann"]⟩ ∈
      (oneCustomer 1).rows :=
    ⟨rfl, ⟨_, ((Codec.Body.encodeRow [.int 1, .text "ann"]).toOption).getD [], rfl,
      by decide +kernel, by decide +kernel⟩, by decide +kernel, by decide +kernel⟩
  obtain ⟨_, finds⟩ := foreignKey_finds_iff shop_accepted shop_plain .standard 256
    (show _ = oneCustomer 1 from rfl)
  have order := finds shopCustomer shopOrder 1 (shop_known _ (by simp)) ⟨shop_known _ (by simp), rfl⟩
  obtain ⟨s', done⟩ : ∃ s', (oneCustomer 1).insert ⟨2⟩ [.int 11, .float ⟨0x3ff0000000000000⟩] =
      .ok ((RowKey.empty.push ⟨1⟩ (.int 1)).push ⟨2⟩ (.int 11), s') :=
    exists_of_first (by decide +kernel)
  have next : (oneCustomer 1).after (.insert ⟨2⟩ [.int 11, .float ⟨0x3ff0000000000000⟩]) = s' := by
    rw [Store.after, done]
  obtain ⟨s'', done'⟩ : ∃ s'', s'.insert ⟨1⟩ [.int 2, .text "bob"] =
      .ok (RowKey.empty.push ⟨1⟩ (.int 2), s'') := by
    rw [← next]
    exact exists_of_first (by decide +kernel)
  have below := (order _ _ _ done _ rfl (by decide) [.int 1, .text "ann"] _ rfl rfl).1 _ stored
  obtain ⟨r, member, table, same, apart⟩ :=
    (order _ _ _ done _ rfl (by decide) [.int 2, .text "bob"] _ rfl rfl).2 _ _ done'
  refine ⟨shop_accepted, shop_plain, stored, s', s'', done, done', (below.1 (by decide +kernel)).2, r,
    member, table, same, ?_⟩
  rw [Bool.eq_false_iff, Ne, apart]
  exact fun both => absurd both.1 (by decide +kernel)

/-- An integer with too many bits compares equal to the float nearest to it and keys apart from it, so an
order that asks with the float does not go below the customer. -/
theorem foreignKey_misses_shop :
    (Value.int 9007199254740993).compare? (.float ⟨0x4340000000000000⟩) = some .eq ∧
    Codec.Sortable.encode (Value.int 9007199254740993).keyForm ≠
      Codec.Sortable.encode (Value.float ⟨0x4340000000000000⟩).keyForm ∧
    ⟨shopCustomer, RowKey.empty.push ⟨1⟩ (.int 9007199254740993),
        [.int 9007199254740993, .text "ann"]⟩ ∈ (oneCustomer 9007199254740993).rows ∧
    ∃ s', (oneCustomer 9007199254740993).insert ⟨2⟩ [.int 11, .float ⟨0x4340000000000000⟩] =
        .ok ((RowKey.empty.push ⟨1⟩ (.int 9007199254740992)).push ⟨2⟩ (.int 11), s') ∧
      (RowKey.empty.push ⟨1⟩ (.int 9007199254740993)).isAbove
        ((RowKey.empty.push ⟨1⟩ (.int 9007199254740992)).push ⟨2⟩ (.int 11)) = false := by
  refine ⟨by decide +kernel, by decide +kernel,
    ⟨rfl, ⟨_, ((Codec.Body.encodeRow [.int 9007199254740993, .text "ann"]).toOption).getD [], rfl,
      by decide +kernel, by decide +kernel⟩, by decide +kernel, by decide +kernel⟩, ?_⟩
  obtain ⟨s', done⟩ : ∃ s', (oneCustomer 9007199254740993).insert ⟨2⟩
      [.int 11, .float ⟨0x4340000000000000⟩] =
        .ok ((RowKey.empty.push ⟨1⟩ (.int 9007199254740992)).push ⟨2⟩ (.int 11), s') :=
    exists_of_first (by decide +kernel)
  exact ⟨s', done, by decide +kernel⟩

end Store

end Interleave
