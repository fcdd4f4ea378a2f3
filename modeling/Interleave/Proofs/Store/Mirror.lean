import Mathlib.Data.List.Pairwise
import Mathlib.Data.Set.Insert
import Interleave.Store
import Interleave.Proofs.Catalog.Lineage
import Interleave.Proofs.Codec.Body
import Interleave.Proofs.Key.Paths
import Interleave.Proofs.Storage.Ranges

/-!
The rows that a store keeps. A row takes one entry in its group, one under its primary key and one in
each index on its table; a map mirrors a set of rows when these are its entries. No two rows of the set
share a last segment, so no two of them take the same place, and rows come and go one by one.
-/

namespace Interleave

open Storage (ByteMap Entry)
open Storage.Layout (encodeKey encodeKey_inj IsPlain)

namespace Storage.ByteMap

def putAll (m : ByteMap) (entries : List Entry) : ByteMap :=
  entries.foldl (fun m e => m.insert e.1 e.2) m

def eraseAll (m : ByteMap) (keys : List Bytes) : ByteMap := keys.foldl erase m

theorem get?_insert_eq_some_iff {m : ByteMap} {e : Entry} {key value : Bytes} :
    (m.insert e.1 e.2).get? key = some value ↔
      (key, value) = e ∨ (key ≠ e.1 ∧ m.get? key = some value) := by
  obtain ⟨place, written⟩ := e
  by_cases same : key = place
  · subst same
    rw [get?_insert_self]
    simp [eq_comm]
  · rw [get?_insert_of_ne m written (Ne.symm same)]
    simp [same]

/-- What is read after writing entries that agree wherever two of them meet. -/
theorem get?_putAll {entries : List Entry}
    (agree : ∀ e ∈ entries, ∀ e' ∈ entries, e.1 = e'.1 → e = e') (m : ByteMap) {key value : Bytes} :
    (m.putAll entries).get? key = some value ↔
      (key, value) ∈ entries ∨ ((∀ e ∈ entries, key ≠ e.1) ∧ m.get? key = some value) := by
  induction entries generalizing m with
  | nil => simp [putAll]
  | cons e rest ih =>
    have agree' : ∀ e ∈ rest, ∀ e' ∈ rest, e.1 = e'.1 → e = e' := fun f member f' member' =>
      agree f (List.mem_cons_of_mem _ member) f' (List.mem_cons_of_mem _ member')
    show ((m.insert e.1 e.2).putAll rest).get? key = some value ↔ _
    rw [ih agree', get?_insert_eq_some_iff]
    constructor
    · rintro (later | ⟨apart, rfl | ⟨ne, before⟩⟩)
      · exact .inl (List.mem_cons_of_mem _ later)
      · exact .inl List.mem_cons_self
      · exact .inr ⟨List.forall_mem_cons.2 ⟨ne, apart⟩, before⟩
    · rintro (member | ⟨apart, before⟩)
      · rcases List.mem_cons.1 member with rfl | later
        · by_cases again : (key, value) ∈ rest
          · exact .inl again
          · refine .inr ⟨fun f member same => again ?_, .inl rfl⟩
            rwa [agree _ List.mem_cons_self f (List.mem_cons_of_mem _ member) same]
        · exact .inl later
      · exact .inr ⟨fun f member => apart f (List.mem_cons_of_mem _ member),
          .inr ⟨apart e List.mem_cons_self, before⟩⟩

theorem get?_eraseAll {keys : List Bytes} (m : ByteMap) {key value : Bytes} :
    (m.eraseAll keys).get? key = some value ↔ key ∉ keys ∧ m.get? key = some value := by
  induction keys generalizing m with
  | nil => simp [eraseAll]
  | cons k rest ih =>
    show ((m.erase k).eraseAll rest).get? key = some value ↔ _
    rw [ih, List.mem_cons, not_or]
    by_cases same : key = k
    · subst same
      simp [get?_erase_self]
    · rw [get?_erase_of_ne m (Ne.symm same)]
      simp [same]

end Storage.ByteMap

/-- The kinds of keyspace of a store. -/
inductive Keyspace where
  | group (name : String)
  | index (name : String)
  | primary (name : String)

namespace Keyspace

def name : Keyspace → String
  | group name => Store.groupSpace name
  | index name => Store.indexSpace name
  | primary name => Store.primarySpace name

theorem name_inj {a b : Keyspace} : a.name = b.name ↔ a = b := by
  constructor
  · intro same
    have chars := congrArg String.toList same
    cases a <;> cases b <;>
      simp [name, Store.groupSpace, Store.indexSpace, Store.primarySpace,
        String.toList_inj] at chars ⊢ <;>
      exact chars
  · rintro rfl
    rfl

theorem isPlain_append {kind name : String} (plain : IsPlain kind) (plain' : IsPlain name) :
    IsPlain (kind ++ name) := by
  have split : Text.utf8 (kind ++ name) = Text.utf8 kind ++ Text.utf8 name := by simp [Text.utf8]
  unfold IsPlain
  rw [split, List.mem_append, not_or]
  exact ⟨plain, plain'⟩

theorem group_plain {name : String} (plain : IsPlain name) : IsPlain (group name).name :=
  isPlain_append (by unfold IsPlain; decide +kernel) plain

theorem index_plain {name : String} (plain : IsPlain name) : IsPlain (index name).name :=
  isPlain_append (by unfold IsPlain; decide +kernel) plain

theorem primary_plain {name : String} (plain : IsPlain name) : IsPlain (primary name).name :=
  isPlain_append (by unfold IsPlain; decide +kernel) plain

end Keyspace

namespace Catalog

/-- No name of the catalog contains a zero byte. -/
structure Plain (c : Catalog) : Prop where
  groups : ∀ g ∈ c.groups, IsPlain g.name
  tables : ∀ t ∈ c.tables, IsPlain t.name
  indexes : ∀ i ∈ c.indexes, IsPlain i.name

def groupName (c : Catalog) (t : Table) : String := ((c.group? t.group).map (·.name)).getD ""

theorem mem_indexesOn {c : Catalog} {id : TableId} {i : Index} :
    i ∈ c.indexesOn id ↔ i ∈ c.indexes ∧ i.table = id := by
  simp [indexesOn]

theorem Forest.groupName_spec {c : Catalog} (forest : c.Forest) {t : Table} (known : t ∈ c.tables) :
    ∃ g ∈ c.groups, c.group? t.group = some g ∧ c.groupName t = g.name := by
  obtain ⟨g, found⟩ := forest.grouped t known
  exact ⟨g, numbered?_mem found, found, by simp [groupName, found]⟩

theorem Forest.index_eq {c : Catalog} (forest : c.Forest) {i i' : Index} (member : i ∈ c.indexes)
    (member' : i' ∈ c.indexes) (same : i.name = i'.name) : i = i' := by
  by_contra different
  have symmetric : Std.Symm fun a b : Index => a.name ≠ b.name := ⟨fun a b apart => apart.symm⟩
  exact forest.indexNames.forall (Array.mem_toList_iff.2 member)
    (Array.mem_toList_iff.2 member') different same

end Catalog

theorem shop_plain : shop.Plain := by
  constructor <;> simp [shop, shopCustomer, shopOrder, shopItem] <;>
    (unfold IsPlain; decide +kernel)

/-- A row of a table under its key. -/
structure StoredRow where
  table : Table
  key : RowKey
  values : List Value

namespace StoredRow

def own (r : StoredRow) : Value := Store.primaryKey r.table r.values

/-- What a row is known by: its table and its key value. -/
def segment (r : StoredRow) : Segment := .of r.table.id r.own

def body (r : StoredRow) : Bytes :=
  match Codec.Body.encodeRow r.values with
  | .ok body => body
  | .error _ => []

/-- Where a row is found: in its group, under its primary key, and in the indexes on its table. -/
def places (c : Catalog) (r : StoredRow) : List (Keyspace × Entry) :=
  (.group (c.groupName r.table), r.key.bytes, r.body) ::
    (.primary r.table.name, Codec.Sortable.encode r.own, r.key.bytes) ::
    (c.indexesOn r.table.id).map fun i => (.index i.name, Store.indexKey i r.values r.key, [])

def entries (c : Catalog) (r : StoredRow) : List Entry :=
  (r.places c).map fun (space, key, value) => (encodeKey space.name key, value)

/-- Whether a row is one of its table, encodable, and at the end of a path that fits the table. -/
structure Valid (c : Catalog) (r : StoredRow) : Prop where
  known : r.table ∈ c.tables
  counted : r.values.length = r.table.columnCount
  encodable : Codec.Body.encodeRow r.values = .ok r.body
  written : r.key.IsWritten
  path : r.key.segments.map (·.table) = (c.path r.table.id).map (·.id)
  last : r.key.segments.getLast? = some r.segment

end StoredRow

/-- Whether a map holds the entries of a set of rows, no two with the same table and key value, and
nothing else. -/
structure Mirrors (c : Catalog) (m : ByteMap) (rows : Set StoredRow) : Prop where
  valid : ∀ r ∈ rows, r.Valid c
  distinct : ∀ r ∈ rows, ∀ r' ∈ rows, r.segment = r'.segment → r = r'
  entries : ∀ key value, m.get? key = some value ↔ ∃ r ∈ rows, (key, value) ∈ r.entries c

namespace StoredRow

variable {c : Catalog} {r r' : StoredRow}

theorem group_mem_places {name : String} {e : Entry} : (.group name, e) ∈ r.places c ↔
    name = c.groupName r.table ∧ e = (r.key.bytes, r.body) := by
  simp [places]

theorem primary_mem_places {name : String} {e : Entry} : (.primary name, e) ∈ r.places c ↔
    name = r.table.name ∧ e = (Codec.Sortable.encode r.own, r.key.bytes) := by
  simp [places]

theorem index_mem_places {name : String} {e : Entry} : (.index name, e) ∈ r.places c ↔
    ∃ i ∈ c.indexesOn r.table.id, i.name = name ∧ (Store.indexKey i r.values r.key, []) = e := by
  simp [places]

theorem segment_inj : r.segment = r'.segment ↔
    r.table.id = r'.table.id ∧ Codec.Sortable.encode r.own = Codec.Sortable.encode r'.own := by
  simp [segment, Segment.of]

theorem Valid.segment_eq_of_key (valid : r.Valid c) (valid' : r'.Valid c)
    (same : r.key.bytes = r'.key.bytes) :
    r.segment = r'.segment := by
  have last := valid.last
  rw [(RowKey.bytes_inj valid.written valid'.written).1 same, valid'.last] at last
  exact (Option.some.inj last).symm

section Forest

variable (forest : c.Forest)
include forest

theorem Valid.space_plain (plain : c.Plain) (valid : r.Valid c) {space : Keyspace} {e : Entry}
    (member : (space, e) ∈ r.places c) :
    IsPlain space.name := by
  simp only [places, List.mem_cons, List.mem_map] at member
  rcases member with same | same | ⟨i, on, same⟩
  · obtain ⟨g, here, _, name⟩ := forest.groupName_spec valid.known
    rw [(Prod.mk.inj same).1, name]
    exact Keyspace.group_plain (plain.groups g here)
  · rw [(Prod.mk.inj same).1]
    exact Keyspace.primary_plain (plain.tables _ valid.known)
  · rw [← (Prod.mk.inj same).1]
    exact Keyspace.index_plain (plain.indexes i (Catalog.mem_indexesOn.1 on).1)

/-- Rows that meet in one place have the same table and key value. -/
theorem segment_eq_of_places (valid : r.Valid c) (valid' : r'.Valid c) {space : Keyspace}
    {key value value' : Bytes} (member : (space, key, value) ∈ r.places c)
    (member' : (space, key, value') ∈ r'.places c) :
    r.segment = r'.segment := by
  cases space with
  | group name =>
    rw [group_mem_places, Prod.mk.injEq] at member member'
    exact valid.segment_eq_of_key valid' (member.2.1.symm.trans member'.2.1)
  | primary name =>
    rw [primary_mem_places, Prod.mk.injEq] at member member'
    have table := forest.tableNames _ valid.known _ valid'.known (member.1.symm.trans member'.1)
    exact segment_inj.2 ⟨congrArg Table.id table, member.2.1.symm.trans member'.2.1⟩
  | index name =>
    obtain ⟨i, on, named, form⟩ := index_mem_places.1 member
    obtain ⟨i', on', named', form'⟩ := index_mem_places.1 member'
    obtain ⟨known, _⟩ := Catalog.mem_indexesOn.1 on
    obtain ⟨known', _⟩ := Catalog.mem_indexesOn.1 on'
    obtain rfl := forest.index_eq known known' (named.trans named'.symm)
    have keys := (Prod.mk.inj form).1.trans (Prod.mk.inj form').1.symm
    have tails := (Codec.Sortable.encodeAll_append_inj (by simp) keys).2
    exact valid.segment_eq_of_key valid' tails

variable (plain : c.Plain)
include plain

theorem places_of_entries {e e' : Entry} (valid : r.Valid c) (valid' : r'.Valid c)
    (member : e ∈ r.entries c) (member' : e' ∈ r'.entries c) (same : e.1 = e'.1) :
    ∃ space key, e.1 = encodeKey space.name key ∧ (space, key, e.2) ∈ r.places c ∧
      (space, key, e'.2) ∈ r'.places c := by
  obtain ⟨⟨space, key, value⟩, place, rfl⟩ := List.mem_map.1 member
  obtain ⟨⟨space', key', value'⟩, place', rfl⟩ := List.mem_map.1 member'
  have both := (encodeKey_inj (valid.space_plain forest plain place)
    (valid'.space_plain forest plain place')).1 same
  obtain rfl := Keyspace.name_inj.1 both.1
  obtain rfl := both.2
  exact ⟨space, key, rfl, place, place'⟩

theorem segment_eq_of_entries {e e' : Entry} (valid : r.Valid c) (valid' : r'.Valid c)
    (member : e ∈ r.entries c) (member' : e' ∈ r'.entries c) (same : e.1 = e'.1) :
    r.segment = r'.segment := by
  obtain ⟨space, key, _, place, place'⟩ :=
    places_of_entries forest plain valid valid' member member' same
  exact segment_eq_of_places forest valid valid' place place'

/-- A row takes every place once. -/
theorem entries_agree (valid : r.Valid c) :
    ∀ e ∈ r.entries c, ∀ e' ∈ r.entries c, e.1 = e'.1 → e = e' := by
  intro e member e' member' same
  obtain ⟨space, key, _, place, place'⟩ :=
    places_of_entries forest plain valid valid member member' same
  apply Prod.ext same
  cases space with
  | group name =>
    rw [group_mem_places, Prod.mk.injEq] at place place'
    exact place.2.2.trans place'.2.2.symm
  | primary name =>
    rw [primary_mem_places, Prod.mk.injEq] at place place'
    exact place.2.2.trans place'.2.2.symm
  | index name =>
    obtain ⟨i, _, _, form⟩ := index_mem_places.1 place
    obtain ⟨i', _, _, form'⟩ := index_mem_places.1 place'
    exact (Prod.mk.inj form).2.symm.trans (Prod.mk.inj form').2

end Forest

end StoredRow

namespace Mirrors

variable {c : Catalog} {m : ByteMap} {rows : Set StoredRow}

theorem empty (c : Catalog) : Mirrors c .empty ∅ where
  valid r member := member.elim
  distinct r member := member.elim
  entries key value := by simp [ByteMap.get?, ByteMap.empty]

/-- The rows tell the whole map. -/
theorem unique {m' : ByteMap} (mirrors : Mirrors c m rows) (mirrors' : Mirrors c m' rows) : m = m' :=
  ByteMap.ext_get? fun key => Option.ext fun value => by rw [mirrors.entries, mirrors'.entries]

section Forest

variable (forest : c.Forest) (plain : c.Plain) (mirrors : Mirrors c m rows)
include forest plain mirrors

/-- Writing the entries of a row with a new table and key value adds the row. -/
theorem put {r : StoredRow} (valid : r.Valid c) (fresh : ∀ r' ∈ rows, r'.segment ≠ r.segment) :
    Mirrors c (m.putAll (r.entries c)) (insert r rows) where
  valid := Set.forall_mem_insert.2 ⟨valid, mirrors.valid⟩
  distinct r₁ member r₂ member' same := by
    rcases member with rfl | member <;> rcases member' with rfl | member'
    · rfl
    · exact absurd same.symm (fresh r₂ member')
    · exact absurd same (fresh r₁ member)
    · exact mirrors.distinct r₁ member r₂ member' same
  entries key value := by
    rw [ByteMap.get?_putAll (StoredRow.entries_agree forest plain valid), mirrors.entries,
      Set.exists_mem_insert]
    refine or_congr_right ⟨And.right, fun found => ⟨fun e inside same => ?_, found⟩⟩
    obtain ⟨r', member, inside'⟩ := found
    exact fresh r' member (StoredRow.segment_eq_of_entries forest plain
      (mirrors.valid r' member) valid inside' inside same)

/-- Erasing the places of a row removes the row. -/
theorem remove {r : StoredRow} (member : r ∈ rows) {keys : List Bytes}
    (all : ∀ key, key ∈ keys ↔ ∃ e ∈ r.entries c, e.1 = key) :
    Mirrors c (m.eraseAll keys) (rows \ {r}) where
  valid r' member' := mirrors.valid r' member'.1
  distinct r₁ member r₂ member' := mirrors.distinct r₁ member.1 r₂ member'.1
  entries key value := by
    rw [ByteMap.get?_eraseAll, mirrors.entries, all]
    constructor
    · rintro ⟨outside, r', member', inside⟩
      refine ⟨r', ⟨member', ?_⟩, inside⟩
      rintro rfl
      exact outside ⟨_, inside, rfl⟩
    · rintro ⟨r', ⟨member', other⟩, inside⟩
      refine ⟨?_, r', member', inside⟩
      rintro ⟨e, inside', same⟩
      have segments := StoredRow.segment_eq_of_entries forest plain (mirrors.valid r' member')
        (mirrors.valid r member) inside inside' same.symm
      exact other (mirrors.distinct r' member' r member segments)

/-- A keyspace holds the places that the rows take in it. -/
theorem getIn?_iff {space : Keyspace} (inCatalog : IsPlain space.name) {key value : Bytes} :
    m.getIn? space.name key = some value ↔ ∃ r ∈ rows, (space, key, value) ∈ r.places c := by
  rw [ByteMap.getIn?, mirrors.entries]
  refine exists_congr fun r => and_congr_right fun member => ?_
  constructor
  · intro inside
    obtain ⟨⟨space', key', value'⟩, place, same⟩ := List.mem_map.1 inside
    have plainSpace := (mirrors.valid r member).space_plain forest plain place
    obtain ⟨physical, rfl⟩ := Prod.mk.inj same
    obtain ⟨names, rfl⟩ := (encodeKey_inj plainSpace inCatalog).1 physical
    exact Keyspace.name_inj.1 names ▸ place
  · exact fun place => List.mem_map.2 ⟨_, place, rfl⟩

end Forest

end Mirrors

end Interleave
