import Interleave.Proofs.Store.Attachment

/-!
Rows that lose the row above them. A row that is removed and comes again with another parent, or while its
parent is missing, leaves the rows below it where they were, under its old key. Main statement: rows stay
below their stored parents in every run that takes rows away from above others only in certain tables
exactly when rows of these tables come again where they were, or have no rows below them.
-/

namespace Interleave

open Storage (EngineConfig)

/-- A row of zeros under a key. -/
def zeroRow (t : Table) (k : RowKey) : StoredRow := ⟨t, k, List.replicate t.columnCount (.int 0)⟩

namespace Store

section Keys

variable {c : Catalog} (forest : c.Forest)
include forest

theorem own_zeroRow {t : Table} (known : t ∈ c.tables) (k : RowKey) : (zeroRow t k).own = .int 0 :=
  primaryKey_replicate forest known (.int 0)

theorem segment_zeroRow {t : Table} (known : t ∈ c.tables) (k : RowKey) :
    (zeroRow t k).segment = .of t.id (.int 0) := by
  rw [StoredRow.segment, own_zeroRow forest known]
  rfl

/-- Missing rows with different key values have different places. -/
theorem orphanKey_ne {t : Table} (known : t ∈ c.tables) {v w : Value}
    (different : Codec.Sortable.encode v ≠ Codec.Sortable.encode w) :
    orphanKey c t.id v ≠ orphanKey c t.id w := by
  intro same
  have last := congrArg (fun k : RowKey => k.segments.getLast?) same
  simp only [segments_orphanKey forest known, List.getLast?_concat] at last
  exact different (congrArg Segment.value (Option.some.inj last))

end Keys

theorem push_inj {k k' : RowKey} {id : TableId} {v : Value} (same : k.push id v = k'.push id v) :
    k = k' := by
  have segments := congrArg RowKey.segments same
  rw [RowKey.segments_push, RowKey.segments_push] at segments
  exact congrArg RowKey.mk (List.append_inj_left' segments rfl)

section Steps

variable {s : Store} {c : Catalog} (same : s.catalog = c) {rows : Set StoredRow} (holds : s.Holds rows)
  {t : Table} (known : t ∈ c.tables)
include same holds known

/-- A row of zeros comes in deeper in the hierarchy than all others. -/
theorem after_insert_zeros (storable : t.Storable)
    (deeper : ∀ r ∈ rows, (c.path r.table.id).length < (c.path t.id).length) :
    ∃ key s', Seat c rows t (List.replicate t.columnCount (.int 0)) key ∧
      s.after (.insert t.id (List.replicate t.columnCount (.int 0))) = s' ∧ s'.catalog = c ∧
      s'.Holds (Insert.insert (zeroRow t key) rows) := by
  subst same
  have forest := holds.forest
  obtain ⟨body, encodable⟩ := Codec.Body.encodeRow_replicate (v := .int 0) rfl storable
  have fresh : ∀ r ∈ rows,
      r.segment ≠ .of t.id (primaryKey t (List.replicate t.columnCount (.int 0))) := by
    intro r member same
    have less := deeper r member
    rw [show r.table.id = t.id from congrArg Segment.table same] at less
    exact Nat.lt_irrefl _ less
  obtain ⟨key, m, seat, valid, done, holds'⟩ :=
    holds.insert_ok (forest.table?_id known) List.length_replicate fresh encodable
  have still := withRow_of_deeper forest valid holds.mirrors.valid deeper
  exact ⟨key, s.withContents m, seat, by rw [Store.after, done], rfl, still ▸ holds'⟩

/-- A stored row of zeros is taken away. -/
theorem after_delete_zeros {k : RowKey} (member : zeroRow t k ∈ rows) :
    ∃ s', s.after (.delete t.id (.int 0)) = s' ∧ s'.catalog = c ∧
      s'.Holds (rows \ {zeroRow t k}) := by
  subst same
  have segment : (zeroRow t k).segment = .of t.id (Value.int 0).keyForm :=
    segment_zeroRow holds.forest known k
  obtain ⟨m, done, holds'⟩ := holds.delete_stored (holds.forest.table?_id known) member segment
  exact ⟨s.withContents m, by rw [Store.after, done], rfl, holds'⟩

theorem spares_insert_zeros (allowed : Table → Prop) :
    s.Spares allowed (.insert t.id (List.replicate t.columnCount (.int 0))) := by
  subst same
  intro t' found
  obtain rfl := Option.some.inj ((holds.forest.table?_id known).symm.trans found)
  rw [primaryKey_replicate holds.forest known]
  exact fun same => nomatch same

theorem spares_delete {allowed : Table → Prop} (v : Value)
    (permitted : ∀ p r, IsParent rows p r → p.table = t → allowed t) :
    s.Spares allowed (.delete t.id v) := by
  subst same
  intro p r parent segment
  rw [holds.rows_eq] at parent
  have table := holds.forest.id_inj (holds.mirrors.valid p parent.1).known known
    (congrArg Segment.table segment)
  rw [table]
  exact permitted p r parent table

end Steps

section Return

variable {s : Store} {p t w : Table} {column column' : Nat} (link : s.catalog.Links p t column)
  (link' : s.catalog.Links t w column') (known : w ∈ s.catalog.tables) {above : RowKey}
  (holds : s.Holds {zeroRow w ((above.push t.id (.int 0)).push w.id (.int 0))})
include link link' known holds

/-- A row below a removed one is not drawn along by a row that comes in its stead, unless it is below the
place kept for it. -/
theorem shift_left (named : orphanKey s.catalog p.id .null ≠ above) (target : RowKey) :
    (zeroRow w ((above.push t.id (.int 0)).push w.id (.int 0))).shift
        (orphanKey s.catalog t.id (.int 0)) target =
      zeroRow w ((above.push t.id (.int 0)).push w.id (.int 0)) := by
  have forest := holds.forest
  have valid := holds.mirrors.valid _ (Set.mem_singleton _)
  have written : (above.push t.id (.int 0)).IsWritten := fun segment member =>
    valid.written segment (List.mem_append_left _ member)
  refine StoredRow.shift_push_of_apart (isWritten_orphanKey _) written rfl fun inside => ?_
  have depth : (((above.push t.id (.int 0)).push w.id (.int 0)).segments.map (·.table)).length =
      ((s.catalog.path w.id).map (·.id)).length := congrArg List.length valid.path
  rw [forest.path_child known link', forest.path_child link'.1 link] at depth
  have depth' := congrArg List.length (follows_orphanKey forest link'.1 (.int 0))
  rw [forest.path_child link'.1 link] at depth'
  have length : (orphanKey s.catalog t.id (.int 0)).segments.length = above.segments.length + 1 := by
    simp only [RowKey.segments_push, List.length_map, List.length_append,
      List.length_singleton] at depth depth'
    omega
  have same := inside.eq_of_length (length.trans (by simp))
  rw [orphanKey_child forest link'.1 link] at same
  exact named (push_inj (congrArg RowKey.mk same))

/-- A row comes again at another place than where it left the row below it. -/
theorem not_attached_insert {values : List Value} (counted : values.length = t.columnCount)
    {body : Bytes} (encodable : Codec.Body.encodeRow values = .ok body)
    (own : primaryKey t values = .int 0)
    (elsewhere : orphanKey s.catalog p.id (foreignKey ⟨p.id, column⟩ values) ≠ above)
    (named : orphanKey s.catalog p.id .null ≠ above) :
    ¬ (s.after (.insert t.id values)).Attached := by
  have forest := holds.forest
  have lower : t.id.toNat < w.id.toNat := forest.parent_lt known link'
  have upper : p.id.toNat < t.id.toNat := forest.parent_lt link'.1 link
  have stays := shift_left link link' known holds named
  generalize place : (above.push t.id (.int 0)).push w.id (.int 0) = key at holds stays
  have segment := segment_zeroRow forest known key
  have apart (u : Table) (less : u.id.toNat < w.id.toNat) (v : Value) :
      (zeroRow w key).segment ≠ .of u.id v := by
    intro same
    rw [show u.id = w.id from (congrArg Segment.table (segment.symm.trans same)).symm] at less
    exact Nat.lt_irrefl _ less
  have fresh : ∀ r ∈ ({zeroRow w key} : Set StoredRow), r.segment ≠ .of t.id (primaryKey t values) := by
    rintro _ rfl
    exact apart t lower _
  obtain ⟨key', m, seat, valid, done, holds'⟩ :=
    holds.insert_ok (forest.table?_id link'.1) counted fresh encodable
  have place' : key' =
      (orphanKey s.catalog p.id (foreignKey ⟨p.id, column⟩ values)).push t.id (.int 0) := by
    rcases seat.child_cases link.2 with ⟨_, rfl, same, _⟩ | ⟨_, place⟩
    · exact absurd same (apart p (by omega) _)
    · rw [place, own]
  have new : (⟨t, key', values⟩ : StoredRow) ∈ withRow s.catalog {zeroRow w key} ⟨t, key', values⟩ :=
    mem_withRow_new forest valid
  have old : zeroRow w key ∈ withRow s.catalog {zeroRow w key} ⟨t, key', values⟩ := by
    refine ⟨_, Set.mem_insert_of_mem _ rfl, ?_⟩
    rw [show (⟨t, key', values⟩ : StoredRow).own = .int 0 from own]
    exact stays key'
  have parent : IsParent (withRow s.catalog {zeroRow w key} ⟨t, key', values⟩) ⟨t, key', values⟩
      (zeroRow w key) := by
    refine ⟨new, old, _, link'.2, ?_⟩
    have foreign : foreignKey ⟨t.id, column'⟩ (zeroRow w key).values = .int 0 :=
      foreignKey_replicate forest known link' (.int 0)
    rw [foreign, StoredRow.segment, show (⟨t, key', values⟩ : StoredRow).own = .int 0 from own]
  have next : s.after (.insert t.id values) = s.withContents m := by rw [Store.after, done]
  rw [next, Attached, holds'.rows_eq]
  intro attached
  have below := attached _ _ parent
  rw [own_zeroRow forest known] at below
  have same : (above.push t.id (.int 0)).push w.id (.int 0) = key'.push w.id (.int 0) :=
    place.trans below
  exact elsewhere (push_inj (place'.symm.trans (push_inj same).symm))

end Return

variable {allowed : Table → Prop}

theorem Careful.append {s : Store} {changes others : List Change} (careful : s.Careful allowed changes)
    (careful' : (s.run changes).Careful allowed others) : s.Careful allowed (changes ++ others) := by
  induction changes generalizing s with
  | nil => exact careful'
  | cons change rest ih => exact ⟨careful.1, ih careful.2 careful'⟩

/-- A row of zeros, one below it, and the first taken away again. -/
def abandonment (t w : Table) : List Change :=
  [.insert t.id (List.replicate t.columnCount (.int 0)),
    .insert w.id (List.replicate w.columnCount (.int 0)), .delete t.id (.int 0)]

section Abandonment

variable {s : Store} {c : Catalog} (same : s.catalog = c) {rows : Set StoredRow} (holds : s.Holds rows)
  {t w : Table} {column : Nat} (link : c.Links t w column) (known : w ∈ c.tables)
  (storable : t.Storable) (storable' : w.Storable)
  (deeper : ∀ r ∈ rows, (c.path r.table.id).length < (c.path t.id).length)
include same holds link known storable storable' deeper

variable (allowed) in
/-- The row below stays where the other put it. -/
theorem holds_abandonment (permitted : allowed t) :
    ∃ key s', Seat c rows t (List.replicate t.columnCount (.int 0)) key ∧
      s.Careful allowed (abandonment t w) ∧ s.run (abandonment t w) = s' ∧ s'.catalog = c ∧
      s'.Holds (Insert.insert (zeroRow w (key.push w.id (.int 0))) rows) := by
  have forest := same ▸ holds.forest
  have lower : t.id.toNat < w.id.toNat := forest.parent_lt known link
  have spares := spares_insert_zeros same holds link.1 allowed
  obtain ⟨key, s₁, seat, done, same₁, holds₁⟩ := after_insert_zeros same holds link.1 storable deeper
  have deeper' : ∀ r ∈ Insert.insert (zeroRow t key) rows,
      (c.path r.table.id).length < (c.path w.id).length := by
    rw [forest.path_child known link, List.length_append, List.length_singleton]
    rintro r (rfl | member)
    · exact Nat.lt_succ_self _
    · exact Nat.lt_succ_of_lt (deeper r member)
  have spares₁ := spares_insert_zeros same₁ holds₁ known allowed
  obtain ⟨key', s₂, seat', done₁, same₂, holds₂⟩ :=
    after_insert_zeros same₁ holds₁ known storable' deeper'
  have segment := segment_zeroRow forest link.1 key
  have place : key' = key.push w.id (.int 0) := by
    have own : primaryKey w (List.replicate w.columnCount (.int 0)) = .int 0 :=
      primaryKey_replicate forest known (.int 0)
    have foreign : foreignKey ⟨t.id, column⟩ (List.replicate w.columnCount (.int 0)) = .int 0 :=
      foreignKey_replicate forest known link (.int 0)
    rcases seat'.child_cases link.2 with ⟨r, stored, parent, place⟩ | ⟨missing, _⟩
    · rw [foreign] at parent
      rw [place, own, holds₁.mirrors.distinct r stored _ (Set.mem_insert _ _)
        (parent.trans segment.symm)]
      rfl
    · rw [foreign] at missing
      exact absurd segment (missing _ (Set.mem_insert _ _))
  subst place
  have member : zeroRow t key ∈ Insert.insert (zeroRow w (key.push w.id (.int 0)))
      (Insert.insert (zeroRow t key) rows) := Set.mem_insert_of_mem _ (Set.mem_insert _ _)
  have spares₂ : s₂.Spares allowed (.delete t.id (.int 0)) :=
    spares_delete same₂ holds₂ link.1 _ fun _ _ _ _ => permitted
  obtain ⟨s₃, done₂, same₃, holds₃⟩ := after_delete_zeros same₂ holds₂ link.1 member
  have left : Insert.insert (zeroRow w (key.push w.id (.int 0)))
      (Insert.insert (zeroRow t key) rows) \ {zeroRow t key} =
        Insert.insert (zeroRow w (key.push w.id (.int 0))) rows := by
    have other : zeroRow w (key.push w.id (.int 0)) ∉ ({zeroRow t key} : Set StoredRow) := by
      intro equal
      rw [show w = t from congrArg StoredRow.table equal] at lower
      exact Nat.lt_irrefl _ lower
    have absent : zeroRow t key ∉ rows := fun inside => Nat.lt_irrefl _ (deeper _ inside)
    rw [Set.insert_sdiff_of_notMem _ other, Set.insert_sdiff_self_of_notMem absent]
  refine ⟨key, s₃, seat, ⟨spares, ?_⟩, ?_, same₃, left ▸ holds₃⟩
  · rw [done]
    refine ⟨spares₁, ?_⟩
    rw [done₁]
    exact ⟨spares₂, trivial⟩
  · rw [Store.run, abandonment, List.foldl_cons, done, List.foldl_cons, done₁, List.foldl_cons, done₂,
      List.foldl_nil]

end Abandonment

/-- The same, and the row comes again with another value in one column. -/
def departure (t w : Table) (column : Nat) : List Change :=
  abandonment t w ++ [.insert t.id ((List.replicate t.columnCount (.int 0)).set column (.int 1))]

theorem run_append (s : Store) (changes others : List Change) :
    s.run (changes ++ others) = (s.run changes).run others := List.foldl_append

section Runs

variable {s : Store} (holds : s.Holds ∅) {p t w : Table} {column column' : Nat}
  (link : s.catalog.Links p t column) (link' : s.catalog.Links t w column')
  (known : w ∈ s.catalog.tables) (storable : t.Storable) (storable' : w.Storable)
  (permitted : allowed t)
include holds link link' known storable storable' permitted

/-- A row comes again with another parent. -/
theorem detached_departure (other : column ≠ t.primaryKey) :
    s.Careful allowed (departure t w column) ∧ ¬ (s.run (departure t w column)).Attached := by
  have forest := holds.forest
  have inside : column < t.columnCount := forest.column_lt link'.1 link
  obtain ⟨key, s', seat, careful, done, same, holds'⟩ := holds_abandonment allowed rfl
    holds link' known storable storable' (fun r member => absurd member (Set.notMem_empty r)) permitted
  have place : key = (orphanKey s.catalog p.id (.int 0)).push t.id (.int 0) := by
    have own : primaryKey t (List.replicate t.columnCount (.int 0)) = .int 0 :=
      primaryKey_replicate forest link'.1 (.int 0)
    have foreign : foreignKey ⟨p.id, column⟩ (List.replicate t.columnCount (.int 0)) = .int 0 :=
      foreignKey_replicate forest link'.1 link (.int 0)
    rcases seat.child_cases link.2 with ⟨r, stored, _⟩ | ⟨_, place⟩
    · exact absurd stored (Set.notMem_empty r)
    · rw [place, own, foreign]
  rw [place, insert_empty_eq, ← same] at holds'
  rw [← same] at link link' known
  have moved : ∃ body, Codec.Body.encodeRow
      ((List.replicate t.columnCount (.int 0)).set column (.int 1)) = .ok body := by
    refine Codec.Body.encodeRow_ok (fun v member => ?_) ?_
    · rcases List.mem_or_eq_of_mem_set member with old | rfl
      · rw [List.eq_of_mem_replicate old]
        exact ⟨_, rfl⟩
      · exact ⟨_, rfl⟩
    · rw [List.length_set, List.length_replicate]
      exact storable
  obtain ⟨body, encodable⟩ := moved
  have own : primaryKey t ((List.replicate t.columnCount (.int 0)).set column (.int 1)) = .int 0 := by
    rw [primaryKey, List.getElem?_set_ne other]
    exact primaryKey_replicate forest (same ▸ link'.1) (.int 0)
  have foreign : foreignKey ⟨p.id, column⟩
      ((List.replicate t.columnCount (.int 0)).set column (.int 1)) = .int 1 := by
    rw [foreignKey, List.getElem?_set_self (by simpa using inside)]
    rfl
  have elsewhere : orphanKey s'.catalog p.id (foreignKey ⟨p.id, column⟩
      ((List.replicate t.columnCount (.int 0)).set column (.int 1))) ≠
        orphanKey s'.catalog p.id (.int 0) := by
    rw [foreign]
    exact orphanKey_ne holds'.forest link.1 (by decide)
  have named : orphanKey s'.catalog p.id .null ≠ orphanKey s'.catalog p.id (.int 0) :=
    orphanKey_ne holds'.forest link.1 (by decide)
  have detached :=
    not_attached_insert link link' known holds' (by simp) encodable own elsewhere named
  refine ⟨careful.append ?_, ?_⟩
  · rw [done]
    refine ⟨fun t' found => ?_, trivial⟩
    obtain rfl := Option.some.inj ((holds'.forest.table?_id link'.1).symm.trans found)
    rw [own]
    exact Value.noConfusion
  · rw [departure, run_append, done]
    exact detached

/-- A row comes again while its parent, below which it stood before, is missing. -/
theorem detached_apart {g : Table} {column₀ : Nat} (link₀ : s.catalog.Links g p column₀)
    (storable₀ : p.Storable) :
    ∃ changes, s.Careful allowed changes ∧ ¬ (s.run changes).Attached := by
  have forest := holds.forest
  have upper : p.id.toNat < t.id.toNat := forest.parent_lt link'.1 link
  have lower : t.id.toNat < w.id.toNat := forest.parent_lt known link'
  have spares₀ := spares_insert_zeros rfl holds link.1 allowed
  obtain ⟨key₀, s₁, seat₀, done₀, same₁, holds₁⟩ := after_insert_zeros rfl holds link.1 storable₀
    fun r member => absurd member (Set.notMem_empty r)
  have place₀ : key₀ = (orphanKey s.catalog g.id (.int 0)).push p.id (.int 0) := by
    have own : primaryKey p (List.replicate p.columnCount (.int 0)) = .int 0 :=
      primaryKey_replicate forest link.1 (.int 0)
    have foreign : foreignKey ⟨g.id, column₀⟩ (List.replicate p.columnCount (.int 0)) = .int 0 :=
      foreignKey_replicate forest link.1 link₀ (.int 0)
    rcases seat₀.child_cases link₀.2 with ⟨r, stored, _⟩ | ⟨_, place⟩
    · exact absurd stored (Set.notMem_empty r)
    · rw [place, own, foreign]
  rw [insert_empty_eq] at holds₁
  have deeper : ∀ r ∈ ({zeroRow p key₀} : Set StoredRow),
      (s.catalog.path r.table.id).length < (s.catalog.path t.id).length := by
    rintro _ rfl
    rw [forest.path_child link'.1 link, List.length_append, List.length_singleton]
    exact Nat.lt_succ_self _
  obtain ⟨key, s₂, seat, careful, done, same₂, holds₂⟩ := holds_abandonment allowed same₁
    holds₁ link' known storable storable' deeper permitted
  have segment := segment_zeroRow forest link.1 key₀
  have place : key = key₀.push t.id (.int 0) := by
    have own : primaryKey t (List.replicate t.columnCount (.int 0)) = .int 0 :=
      primaryKey_replicate forest link'.1 (.int 0)
    have foreign : foreignKey ⟨p.id, column⟩ (List.replicate t.columnCount (.int 0)) = .int 0 :=
      foreignKey_replicate forest link'.1 link (.int 0)
    rcases seat.child_cases link.2 with ⟨_, rfl, _, place⟩ | ⟨missing, _⟩
    · rw [place, own]
      rfl
    · rw [foreign] at missing
      exact absurd segment (missing _ rfl)
  subst place
  have spares₂ : s₂.Spares allowed (.delete p.id (.int 0)) := by
    refine spares_delete same₂ holds₂ link.1 _ fun q r parent table => ?_
    obtain ⟨_, member, child, below, asked⟩ := parent
    have above : q.table.id = child.table := congrArg Segment.table asked
    rw [table] at above
    rcases member with rfl | rfl
    · have linked : child.table = t.id := congrArg ParentLink.table
        (Option.some.inj (below.symm.trans link'.2))
      rw [above, linked] at upper
      exact absurd upper (Nat.lt_irrefl _)
    · have linked : child.table = g.id := congrArg ParentLink.table
        (Option.some.inj (below.symm.trans link₀.2))
      have less := forest.parent_lt link.1 link₀
      rw [above, linked] at less
      exact absurd less (Nat.lt_irrefl _)
  obtain ⟨s₃, done₃, same₃, holds₃⟩ :=
    after_delete_zeros same₂ holds₂ link.1 (Set.mem_insert_of_mem _ rfl)
  have left : Insert.insert (zeroRow w ((key₀.push t.id (.int 0)).push w.id (.int 0))) {zeroRow p key₀} \
      {zeroRow p key₀} = ({zeroRow w ((key₀.push t.id (.int 0)).push w.id (.int 0))} : Set StoredRow) := by
    have other : zeroRow w ((key₀.push t.id (.int 0)).push w.id (.int 0)) ∉
        ({zeroRow p key₀} : Set StoredRow) := by
      intro equal
      rw [show w = p from congrArg StoredRow.table equal] at lower
      omega
    rw [Set.insert_sdiff_of_notMem _ other, Set.sdiff_self]
    exact insert_empty_eq _
  rw [left] at holds₃
  rw [← same₃] at link link' known link₀ place₀
  have elsewhere : orphanKey s₃.catalog p.id
      (foreignKey ⟨p.id, column⟩ (List.replicate t.columnCount (.int 0))) ≠ key₀ := by
    rw [foreignKey_replicate holds₃.forest link'.1 link, place₀,
      orphanKey_child holds₃.forest link.1 link₀]
    intro same
    exact orphanKey_ne holds₃.forest link₀.1 (by decide) (push_inj same)
  have named : orphanKey s₃.catalog p.id .null ≠ key₀ := by
    rw [place₀, orphanKey_child holds₃.forest link.1 link₀]
    intro same
    have last := congrArg (fun k : RowKey => k.segments.getLast?) same
    simp only [RowKey.segments_push, List.getLast?_concat] at last
    cases congrArg Segment.value (Option.some.inj last)
  obtain ⟨body, encodable⟩ := Codec.Body.encodeRow_replicate (v := .int 0) rfl storable
  have detached := not_attached_insert link link' known holds₃ List.length_replicate encodable
    (primaryKey_replicate holds₃.forest link'.1 (.int 0)) elsewhere named
  have spares₃ := spares_insert_zeros rfl holds₃ link'.1 allowed
  refine ⟨.insert p.id (List.replicate p.columnCount (.int 0)) :: (abandonment t w ++
    [.delete p.id (.int 0), .insert t.id (List.replicate t.columnCount (.int 0))]),
    ⟨spares₀, ?_⟩, ?_⟩
  · rw [done₀]
    refine careful.append ?_
    rw [done]
    refine ⟨spares₂, ?_⟩
    rw [done₃]
    exact ⟨spares₃, trivial⟩
  · rw [Store.run, List.foldl_cons, done₀]
    refine fun attached => detached ?_
    have whole : s₁.run (abandonment t w ++
        [.delete p.id (.int 0), .insert t.id (List.replicate t.columnCount (.int 0))]) =
          s₃.after (.insert t.id (List.replicate t.columnCount (.int 0))) := by
      rw [run_append, done, Store.run, List.foldl_cons, done₃, List.foldl_cons, List.foldl_nil]
    rwa [← whole]

end Runs

/-- Rows stay right below their stored parents in every run with key values that are not null, and with
rows taken away from above others only in certain tables, exactly when rows of these tables come again
where they were or have no rows below them. -/
theorem attached_iff {declarations : List Declaration} {c : Catalog}
    (accepted : Catalog.ofDeclarations declarations = .ok c) (plain : c.Plain)
    (config : EngineConfig) (batchSize : Nat) (allowed : Table → Prop) :
    (∀ changes, (fresh c config batchSize).Careful allowed changes →
      ((fresh c config batchSize).run changes).Attached) ↔
    ∀ t ∈ c.tables, allowed t → t.Storable → Yields c t := by
  have forest := Catalog.forest_of_declarations accepted
  have start := holds_fresh forest plain config batchSize
  constructor
  · intro attached t known permitted storable
    by_contra stuck
    obtain ⟨loose, below⟩ := not_or.1 stuck
    simp only [not_forall, not_not] at below
    obtain ⟨w, known', column', link', storable'⟩ := below
    obtain ⟨inner, apart⟩ := not_or.1 loose
    obtain ⟨p, column, link⟩ := (forest.parent_cases known).resolve_left inner
    have detached : ∃ changes, (fresh c config batchSize).Careful allowed changes ∧
        ¬ ((fresh c config batchSize).run changes).Attached := by
      by_cases own : column = t.primaryKey
      · subst own
        have placed := not_or.1 fun placed => apart ⟨p, link, placed⟩
        obtain ⟨g, column₀, link₀⟩ := (forest.parent_cases link.1).resolve_left placed.1
        exact detached_apart start link link' known' storable storable' permitted link₀
          (not_not.1 placed.2)
      · exact ⟨_, detached_departure start link link' known' storable storable' permitted own⟩
    obtain ⟨changes, careful, lost⟩ := detached
    exact lost (attached changes careful)
  · exact fun free changes careful =>
      start.berthed_run (fun r member => absurd member (Set.notMem_empty r)) free careful

/-- In the shop only orders have rows below them and do not come again where they were. -/
theorem attached_iff_shop : Catalog.ofDeclarations shopDeclarations = .ok shop ∧ shop.Plain ∧
    ∀ changes, (fresh shop .standard 256).Careful (·.name ≠ "order") changes →
      ((fresh shop .standard 256).run changes).Attached := by
  refine ⟨shop_accepted, shop_plain,
    (attached_iff shop_accepted shop_plain .standard 256 (·.name ≠ "order")).2 ?_⟩
  have parents : ∀ w ∈ shop.tables, ∀ link ∈ w.parent, ∀ t ∈ shop.tables, t.id = link.table →
      t.name = "order" ∨ t.parent = none := by
    decide +kernel
  intro t known other _
  by_cases top : t.parent = none
  · exact .inl (.inl top)
  · refine .inr fun w known' column link _ => ?_
    exact (parents w known' _ link.2 t known rfl).elim other top

/-- An order is removed and comes again with another customer; its item stays where it was. -/
theorem detached_shop :
    (fresh shop .standard 256).Careful (fun _ => True)
      [.insert ⟨2⟩ [.int 0, .int 0], .insert ⟨3⟩ [.int 0, .int 0], .delete ⟨2⟩ (.int 0),
        .insert ⟨2⟩ [.int 0, .int 1]] ∧
    ¬ ((fresh shop .standard 256).run
      [.insert ⟨2⟩ [.int 0, .int 0], .insert ⟨3⟩ [.int 0, .int 0], .delete ⟨2⟩ (.int 0),
        .insert ⟨2⟩ [.int 0, .int 1]]).Attached := by
  have customer := shop_known shopCustomer (by simp)
  have order := shop_known shopOrder (by simp)
  have item := shop_known shopItem (by simp)
  have start := holds_fresh (Catalog.forest_of_declarations shop_accepted) shop_plain .standard 256
  have link : shop.Links shopCustomer shopOrder 1 := ⟨customer, rfl⟩
  have link' : shop.Links shopOrder shopItem 1 := ⟨order, rfl⟩
  exact detached_departure start link link' item (by decide) (by decide) trivial (by decide)

end Store

end Interleave
