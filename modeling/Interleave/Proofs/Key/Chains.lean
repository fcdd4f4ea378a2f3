import Interleave.Proofs.Catalog.Lineage
import Interleave.Proofs.Key.Legible
import Interleave.Proofs.Store.Seats

/-!
The rows on the way to a row. A key that goes along the path of a table passes one key of each table above
it. Main statement: wanted tables above a table are met on the way to each of its keys, root first and each
once.
-/

namespace Interleave

namespace RowKey

/-- The keys of the rows above the row of a key, root first. -/
def above (k : RowKey) : List RowKey := (List.range (k.depth - 1)).map fun d => k.truncate (d + 1)

/-- Those of the keys above a key that belong to wanted tables, and then the key itself. -/
def chain (wanted : List TableId) (k : RowKey) : List RowKey :=
  (k.above.filter fun b => b.lastTable?.any wanted.contains) ++ [k]

variable {k b : RowKey}

theorem mem_above : b ∈ k.above ↔ ∃ d, d + 1 < k.depth ∧ k.truncate (d + 1) = b := by
  simp only [above, List.mem_map, List.mem_range, Nat.lt_sub_iff_add_lt]

/-- Above the key itself, a chain has the keys of wanted tables only. -/
theorem mem_above_of_mem_chain {wanted : List TableId} (member : b ∈ k.chain wanted) (strict : b ≠ k) :
    b ∈ k.above ∧ ∃ table ∈ wanted, b.lastTable? = some table := by
  obtain ⟨higher, known⟩ := List.mem_filter.1
    ((List.mem_append.1 member).resolve_right fun own => strict (List.mem_singleton.1 own))
  obtain ⟨table, last, known⟩ := (Option.any_eq_true ..).1 known
  exact ⟨higher, table, List.contains_iff_mem.1 known, last⟩

theorem lastTable?_truncate {d : Nat} (inside : d < k.depth) :
    (k.truncate (d + 1)).lastTable? = k.tableAt? d := by
  have found : k.segments[d]? = some k.segments[d] := List.getElem?_eq_getElem inside
  simp [lastTable?, truncate, tableAt?, List.getLast?_take, found]

theorem tableAt?_truncate (k : RowKey) (d : Nat) : (k.truncate (d + 1)).tableAt? 0 = k.tableAt? 0 := by
  simp [tableAt?, truncate]

/-- The keys above a key are those that begin it. -/
theorem mem_above_iff (writtenB : b.IsWritten) (written : k.IsWritten) :
    b ∈ k.above ↔ b.segments ≠ [] ∧ b.isAbove k = true := by
  rw [mem_above, isAbove_iff_segments writtenB written]
  constructor
  · rintro ⟨d, inside, rfl⟩
    rw [depth] at inside
    refine ⟨?_, k.segments.drop (d + 1), ?_, (List.take_append_drop (d + 1) k.segments).symm⟩
    · apply List.ne_nil_of_length_pos
      rw [truncate, List.length_take]
      omega
    · apply List.ne_nil_of_length_pos
      rw [List.length_drop]
      omega
  · rintro ⟨nonempty, below, more, split⟩
    have first := List.length_pos_iff.2 nonempty
    have last := List.length_pos_iff.2 more
    have length := congrArg List.length split
    rw [List.length_append] at length
    refine ⟨b.segments.length - 1, ?_, ?_⟩
    · rw [depth]
      omega
    · rw [truncate, split, Nat.sub_add_cancel first, List.take_left]

/-- Of two keys above a key the one that is listed first is above the other. -/
theorem above_pairwise (written : k.IsWritten) : k.above.Pairwise fun a b => a.isAbove b = true := by
  refine List.pairwise_map.2 (List.pairwise_lt_range.imp_of_mem fun {d d'} _ member less => ?_)
  have inside := List.mem_range.1 member
  rw [depth] at inside
  have written' (n : Nat) : (k.truncate n).IsWritten := fun s held => written s (List.mem_of_mem_take held)
  refine (isAbove_iff_segments (written' _) (written' _)).2
    ⟨(k.segments.take (d' + 1)).drop (d + 1), ?_, ?_⟩
  · apply List.ne_nil_of_length_pos
    rw [List.length_drop, List.length_take]
    omega
  · have shorter : min (d + 1) (d' + 1) = d + 1 := by omega
    conv_lhs => rw [truncate, ← List.take_append_drop (d + 1) (k.segments.take (d' + 1)), List.take_take,
      shorter]
    rfl

/-- The last of the keys above a key is the one without the last segment. -/
theorem above_eq_concat (deep : 2 ≤ k.depth) :
    k.above = (k.truncate (k.depth - 1)).above ++ [k.truncate (k.depth - 1)] := by
  obtain ⟨n, length⟩ : ∃ n, k.depth = n + 2 := ⟨k.depth - 2, by omega⟩
  have shorter : (k.truncate (n + 1)).depth = n + 1 := by
    rw [depth_truncate, length]
    omega
  have same : ∀ d ∈ List.range n, (k.truncate (n + 1)).truncate (d + 1) = k.truncate (d + 1) := by
    intro d member
    have inside := List.mem_range.1 member
    rw [truncate, truncate, truncate, List.take_take, Nat.min_eq_left (by omega)]
  rw [above, length, show n + 2 - 1 = n + 1 from rfl, List.range_succ, List.map_append, above, shorter,
    Nat.add_sub_cancel, List.map_congr_left same]
  rfl

theorem filterMap_above (k : RowKey) :
    k.above.filterMap lastTable? = k.segments.dropLast.map (·.table) := by
  have each : k.above.map lastTable? = (k.segments.dropLast.map (·.table)).map some := by
    refine List.ext_getElem (by simp [above, depth]) fun d inside _ => ?_
    have low : d < k.depth := by
      simp only [above, List.length_map, List.length_range] at inside
      omega
    have found : k.segments[d]? = some k.segments[d] := List.getElem?_eq_getElem low
    simp only [above, List.getElem_map, List.getElem_range, List.getElem_dropLast,
      lastTable?_truncate low, tableAt?, found]
    rfl
  have listed : (k.above.map lastTable?).filterMap id = k.above.filterMap lastTable? :=
    List.filterMap_map
  rw [← listed, each, List.filterMap_map]
  exact List.filterMap_some

end RowKey

section Follows

variable {c : Catalog} {t : Table} {k : RowKey}

theorem Catalog.Follows.tableAt? (follows : c.Follows t k) (d : Nat) :
    k.tableAt? d = (c.path t.id)[d]?.map Table.id := by
  have same := congrArg (fun tables => tables[d]?) follows
  simp only [List.getElem?_map] at same
  exact same

theorem Catalog.Follows.depth_eq (follows : c.Follows t k) : k.depth = (c.path t.id).length := by
  have length := congrArg List.length follows
  rwa [List.length_map, List.length_map] at length

variable (forest : c.Forest) (known : t ∈ c.tables) (follows : c.Follows t k)
include forest known follows

theorem RowKey.mem_chain {wanted : List TableId} {b : RowKey} (member : b ∈ k.chain wanted) :
    ∃ d, d < k.depth ∧ k.truncate (d + 1) = b := by
  rcases List.mem_append.1 member with higher | own
  · obtain ⟨d, inside, same⟩ := mem_above.1 (List.mem_of_mem_filter higher)
    exact ⟨d, by omega, same⟩
  · have deep := follows.depth_eq
    rw [forest.path_getLast known, List.length_append, List.length_singleton] at deep
    refine ⟨k.depth - 1, by omega, ?_⟩
    rw [List.mem_singleton.1 own]
    exact truncate_of_depth_le (by omega)

/-- Every key of a chain leads from a root of the group to a table of the catalog. -/
theorem RowKey.stations {wanted : List TableId} {b : RowKey} (member : b ∈ k.chain wanted) :
    ∃ root ∈ c.tables, ∃ last ∈ c.tables, b.tableAt? 0 = some root.id ∧ root.group = t.group ∧
      b.lastTable? = some last.id := by
  obtain ⟨d, inside, rfl⟩ := mem_chain forest known follows member
  have low : d < (c.path t.id).length := follows.depth_eq ▸ inside
  have first : 0 < (c.path t.id).length := Nat.zero_lt_of_lt low
  have onPath := forest.mem_path t known
  refine ⟨(c.path t.id)[0], (onPath _ (List.getElem_mem first)).1, (c.path t.id)[d],
    (onPath _ (List.getElem_mem low)).1, ?_, (onPath _ (List.getElem_mem first)).2.2, ?_⟩
  · rw [tableAt?_truncate, follows.tableAt?, List.getElem?_eq_getElem first]
    rfl
  · rw [lastTable?_truncate inside, follows.tableAt?, List.getElem?_eq_getElem low]
    rfl

/-- The wanted tables above a table stand on the way to each of its keys. -/
theorem RowKey.filterMap_wanted {wanted : List TableId}
    (ancestors : ∀ id ∈ wanted, c.isAncestor id t.id = true) :
    (k.above.filter fun b => b.lastTable?.any wanted.contains).filterMap lastTable? =
      ((c.path t.id).map Table.id).filter wanted.contains := by
  have own : t.id ∉ wanted := fun inside =>
    Nat.lt_irrefl _ (forest.isAncestor_spec known known (ancestors t.id inside)).2
  have tables : ((c.path t.id).map Table.id).filter wanted.contains =
      (k.segments.dropLast.map (·.table)).filter wanted.contains := by
    rw [List.map_dropLast, follows, forest.path_getLast known, List.map_append,
      List.map_singleton, List.dropLast_concat, List.filter_append]
    simp [own]
  rw [tables, ← filterMap_above, List.filter_filterMap, List.filterMap_filter]
  refine List.filterMap_congr fun b _ => ?_
  cases b.lastTable? <;> simp [Option.filter]

theorem Catalog.Follows.lastTable? : k.lastTable? = some t.id := by
  have last := congrArg List.getLast? follows
  rw [List.getLast?_map, forest.path_getLast known, List.map_append, List.map_singleton,
    List.getLast?_concat] at last
  exact last

/-- On the way down to a key the numbers of tables grow. -/
theorem RowKey.lt_of_mem_above {b : RowKey} (above : b ∈ k.above) {id : TableId}
    (last : b.lastTable? = some id) : id.toNat < t.id.toNat := by
  have listed : id ∈ k.above.filterMap RowKey.lastTable? := List.mem_filterMap.2 ⟨b, above, last⟩
  rw [filterMap_above, List.map_dropLast, follows, ← List.map_dropLast] at listed
  obtain ⟨q, onPath, rfl⟩ := List.mem_map.1 listed
  obtain ⟨_, _, _, _, less⟩ := forest.above_cases known onPath
  exact less

section Parent

variable {p : Table} {column : Nat} (link : c.Links p t column)
include link

theorem Catalog.Follows.parent :
    c.Follows p (k.truncate (k.depth - 1)) := by
  have path := congrArg List.dropLast follows
  rw [forest.path_child known link, List.map_append, List.map_singleton, List.dropLast_concat,
    ← List.map_dropLast] at path
  rw [Catalog.Follows, ← path, RowKey.truncate, RowKey.depth, List.dropLast_eq_take]

theorem Catalog.Follows.two_le_depth : 2 ≤ k.depth := by
  rw [follows.depth_eq, forest.path_child known link, forest.path_getLast link.1, List.length_append,
    List.length_append]
  exact Nat.le_add_left 2 _

theorem RowKey.parent_mem_above : k.truncate (k.depth - 1) ∈ k.above := by
  rw [above_eq_concat (follows.two_le_depth forest known link)]
  exact List.mem_append_right _ (List.mem_singleton_self _)

/-- A chain that begins at the parent ends with the parent's key and the key itself. -/
theorem RowKey.chain_child {wanted : List TableId} (own : p.id ∉ wanted) :
    k.chain (p.id :: wanted) = (k.above.filter fun b => b.lastTable?.any wanted.contains) ++
      [k.truncate (k.depth - 1), k] := by
  have follows' := follows.parent forest known link
  have deep := follows.two_le_depth forest known link
  have others : ∀ b ∈ (k.truncate (k.depth - 1)).above, b.lastTable?.any (p.id :: wanted).contains =
      b.lastTable?.any wanted.contains := by
    intro b higher
    cases last : b.lastTable? with
    | none => rfl
    | some id =>
      have less := lt_of_mem_above forest link.1 follows' higher last
      have apart : id ≠ p.id := fun same => Nat.lt_irrefl _ (same ▸ less)
      rw [Option.any_some, Option.any_some, List.contains_cons, beq_false_of_ne apart, Bool.false_or]
  have passes : (k.truncate (k.depth - 1)).lastTable?.any (p.id :: wanted).contains = true := by
    rw [follows'.lastTable? forest link.1]
    simp
  have stays : (k.truncate (k.depth - 1)).lastTable?.any wanted.contains = false := by
    rw [follows'.lastTable? forest link.1]
    simpa using own
  rw [chain, above_eq_concat deep, List.filter_append, List.filter_append, List.filter_congr others,
    List.filter_singleton, List.filter_singleton, passes, stays]
  simp

end Parent

end Follows

end Interleave
