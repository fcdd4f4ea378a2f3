import Mathlib.Data.List.Chain
import Mathlib.Logic.Relation
import Interleave.Proofs.Catalog.Admission

/-!
The trees of a catalog. A path begins at the root of the group and goes down from parent to child, and a
table lies above another just if steps from child to parent lead to it. Main statement: declarations make
a catalog just if they are admissible, and every catalog that they make counts what was declared, finds it by
number and by name, and is a forest with one tree to a group.
-/

namespace Interleave

/-- Whether the entries of one kind count from 1 in the order of their names, and are found by number and by
name. -/
structure Listed {α ι : Type} (id : α → ι) (number : ι → Nat) (name : α → String) (names : List String)
    (entries : Array α) (find? : ι → Option α) (named? : String → Option α) : Prop where
  names_eq : entries.toList.map name = names
  numbered : ∀ position a, entries[position]? = some a → number (id a) = position + 1
  find?_iff : ∀ i a, find? i = some a ↔ a ∈ entries ∧ id a = i
  named?_iff : ∀ s a, named? s = some a ↔ a ∈ entries ∧ name a = s

/-- Entries that are numbered in the order of their names are found by both, if the names differ and a map
leads from each to its number. -/
theorem listed_of {α ι : Type} {id : α → ι} {number : ι → Nat} {ofNat : Nat → ι} {name : α → String}
    {names : List String} {entries : Array α} {ids : Std.HashMap String ι}
    (inj : ∀ i j, number i = number j → i = j) (names_eq : entries.toList.map name = names)
    (distinct : names.Nodup) (numbered : Numbered (fun a => number (id a)) entries)
    (numbers : Numbers ofNat ids names) (counts : ∀ n ≤ names.length, number (ofNat n) = n) :
    Listed id number name names entries (fun i => Catalog.numbered? entries (number i))
      fun s => ids[s]?.bind fun i => Catalog.numbered? entries (number i) where
  names_eq := names_eq
  numbered := numbered
  find?_iff i a := by
    constructor
    · exact fun found => ⟨Catalog.numbered?_mem found, inj _ _ (numbered.number_eq found)⟩
    · rintro ⟨member, rfl⟩
      exact numbered.find member
  named?_iff s a := by
    have leads {i : ι} (known : ids[s]? = some i) :
        ∃ b ∈ entries, name b = s ∧ Catalog.numbered? entries (number i) = some b := by
      obtain ⟨place, here, rfl⟩ := numbers.place known
      have inside := (List.getElem?_eq_some_iff.1 here).1
      rw [← names_eq, List.getElem?_map, Array.getElem?_toList] at here
      obtain ⟨b, stands, same⟩ := Option.map_eq_some_iff.1 here
      refine ⟨b, Array.mem_of_getElem? stands, same, ?_⟩
      rw [counts (place + 1) inside, Catalog.numbered?, stands]
    constructor
    · intro found
      obtain ⟨i, known, stands⟩ := Option.bind_eq_some_iff.1 found
      obtain ⟨b, member, same, stands'⟩ := leads known
      obtain rfl := Option.some.inj (stands'.symm.trans stands)
      exact ⟨member, same⟩
    · rintro ⟨member, same⟩
      have member' : s ∈ names := names_eq ▸ same ▸ List.mem_map_of_mem (Array.mem_toList_iff.2 member)
      have known := numbers.contains_iff.2 member'
      rw [Std.HashMap.contains_eq_isSome_getElem?] at known
      obtain ⟨i, known⟩ := Option.isSome_iff_exists.1 known
      obtain ⟨b, inside, same', stands⟩ := leads known
      rw [known, Option.bind_some, stands]
      exact congrArg some (List.inj_on_of_nodup_map (names_eq ▸ distinct) (Array.mem_toList_iff.2 inside)
        (Array.mem_toList_iff.2 member) (same'.trans same.symm))

namespace Catalog

/-- One step up: whether a table is the parent of another. -/
def ParentOf (c : Catalog) (above below : TableId) : Prop := ∃ p, c.parentOf? below = some p ∧ p.id = above

theorem upward_unknown {c : Catalog} {id : TableId} (unknown : c.table? id = none) {fuel : Nat} :
    c.upward fuel id = [] := by
  cases fuel with
  | zero => rfl
  | succ fuel => rw [upward, unknown]

namespace Forest

variable {c : Catalog} (forest : c.Forest)
include forest

theorem parentOf?_eq_some_iff {t p : Table} (member : t ∈ c.tables) :
    c.parentOf? t.id = some p ↔ ∃ column, c.Links p t column := by
  rw [parentOf?, forest.table?_id member, Option.bind_eq_bind, Option.bind_some]
  rcases forest.parent_cases member with top | ⟨q, column, link⟩
  · simp [top, Links]
  · rw [link.2, Option.bind_eq_bind, Option.bind_some, forest.table?_id link.1]
    constructor
    · rintro same
      obtain rfl := Option.some.inj same
      exact ⟨column, link⟩
    · rintro ⟨column', other⟩
      have same := Option.some.inj (link.2.symm.trans other.2)
      rw [forest.id_inj link.1 other.1 (congrArg ParentLink.table same)]

theorem known_of_parentOf {a b : TableId} (step : c.ParentOf a b) : ∃ t ∈ c.tables, t.id = b := by
  obtain ⟨p, found, -⟩ := step
  rw [parentOf?] at found
  obtain ⟨t, known, -⟩ := Option.bind_eq_some_iff.1 found
  exact ⟨t, forest.table?_eq_some known⟩

theorem parentOf_iff {p t : Table} {column : Nat} (member : t ∈ c.tables) (link : c.Links p t column)
    (a : TableId) : c.ParentOf a t.id ↔ p.id = a := by
  constructor
  · rintro ⟨q, found, rfl⟩
    obtain ⟨column', other⟩ := (forest.parentOf?_eq_some_iff member).1 found
    exact congrArg ParentLink.table (Option.some.inj (link.2.symm.trans other.2))
  · exact fun same => ⟨p, (forest.parentOf?_eq_some_iff member).2 ⟨column, link⟩, same⟩

theorem not_parentOf {t : Table} (member : t ∈ c.tables) (top : t.parent = none) (a : TableId) :
    ¬ c.ParentOf a t.id := by
  rintro ⟨q, found, -⟩
  obtain ⟨column, link⟩ := (forest.parentOf?_eq_some_iff member).1 found
  have parent := link.2
  rw [top] at parent
  cases parent

/-- The tables above a table are the ones that steps up lead to. -/
theorem isAncestor_iff (a b : TableId) : c.isAncestor a b = true ↔ Relation.TransGen c.ParentOf a b := by
  rcases found : c.table? b with _ | t
  · have none : c.isAncestor a b = false := by
      rw [isAncestor, path, upward_unknown found]
      rfl
    refine ⟨fun above => by simp [none] at above, fun steps => ?_⟩
    obtain ⟨p, -, step⟩ := Relation.TransGen.tail'_iff.1 steps
    obtain ⟨t, member, rfl⟩ := forest.known_of_parentOf step
    rw [forest.table?_id member] at found
    cases found
  obtain ⟨member, rfl⟩ := forest.table?_eq_some found
  clear found
  revert t
  refine forest.induction ?_ ?_
  · intro t member top
    refine ⟨fun above => ?_, fun steps => ?_⟩
    · simp [isAncestor, forest.path_root member top] at above
    · obtain ⟨p, -, step⟩ := Relation.TransGen.tail'_iff.1 steps
      exact absurd step (forest.not_parentOf member top p)
  · intro t member p column link ih
    have last : Relation.TransGen c.ParentOf a t.id ↔
        ∃ b, (b = a ∨ Relation.TransGen c.ParentOf a b) ∧ p.id = b := by
      simp only [← Relation.reflTransGen_iff_eq_or_transGen, ← forest.parentOf_iff member link]
      exact Relation.TransGen.tail'_iff
    rw [forest.isAncestor_child member link, Bool.or_eq_true, decide_eq_true_eq, ih, last]
    constructor
    · rintro (steps | rfl)
      · exact ⟨p.id, .inr steps, rfl⟩
      · exact ⟨p.id, .inl rfl, rfl⟩
    · rintro ⟨b, same | steps, rfl⟩
      · exact .inr same
      · exact .inl steps

/-- Steps up lead to smaller numbers. -/
theorem lt_of_above {a b : TableId} (steps : Relation.TransGen c.ParentOf a b) : a.toNat < b.toNat := by
  have step (a b : TableId) (step : c.ParentOf a b) : a.toNat < b.toNat := by
    obtain ⟨t, member, rfl⟩ := forest.known_of_parentOf step
    obtain ⟨p, found, rfl⟩ := step
    obtain ⟨column, link⟩ := (forest.parentOf?_eq_some_iff member).1 found
    exact forest.parent_lt member link
  induction steps with
  | single first => exact step _ _ first
  | tail _ last ih => exact Nat.lt_trans ih (step _ _ last)

/-- A path ends by itself, so that nothing more is found however long it is followed. -/
theorem upward_eq {fuel : Nat} (enough : c.tables.size ≤ fuel) (id : TableId) :
    c.upward fuel id = (c.path id).reverse := by
  rw [path, List.reverse_reverse]
  rcases found : c.table? id with _ | t
  · rw [upward_unknown found, upward_unknown found]
  · obtain ⟨member, rfl⟩ := forest.table?_eq_some found
    have inside : t.id.toNat ≤ c.tables.size := forest.numbered.le_size member
    rw [forest.upward_fuel t member fuel (Nat.le_trans inside enough),
      forest.upward_fuel t member c.tables.size inside]

theorem path_eq_nil_iff (id : TableId) : c.path id = [] ↔ c.table? id = none := by
  constructor
  · intro none
    rcases found : c.table? id with _ | t
    · rfl
    · obtain ⟨member, rfl⟩ := forest.table?_eq_some found
      rw [forest.path_getLast member] at none
      simp at none
  · intro unknown
    rw [path, upward_unknown unknown]
    rfl

/-- A path begins at a root of the group. -/
theorem path_head : ∀ t ∈ c.tables, ∃ root ∈ c.tables, root.parent = none ∧ root.group = t.group ∧
    (c.path t.id).head? = some root := by
  refine forest.induction ?_ ?_
  · intro t member top
    exact ⟨t, member, top, rfl, by rw [forest.path_root member top]; rfl⟩
  · intro t member p column link ⟨root, known, top, group, first⟩
    refine ⟨root, known, top, group.trans (forest.parent_group member link), ?_⟩
    rw [forest.path_child member link, List.head?_append, first]
    rfl

/-- A path goes down from parent to child. -/
theorem path_chain : ∀ t ∈ c.tables, (c.path t.id).IsChain fun p t => c.parentOf? t.id = some p := by
  refine forest.induction ?_ ?_
  · intro t member top
    rw [forest.path_root member top]
    exact .singleton t
  · intro t member p column link ih
    rw [forest.path_child member link, List.isChain_append]
    refine ⟨ih, .singleton t, fun q last t' first => ?_⟩
    rw [forest.path_getLast link.1, List.getLast?_concat] at last
    obtain rfl := Option.some.inj last
    obtain rfl := Option.some.inj first
    exact (forest.parentOf?_eq_some_iff member).2 ⟨column, link⟩

end Forest

namespace Records

variable {declarations : List Declaration} {c : Catalog} (records : Records declarations c)
  (admissible : Admissible declarations) (forest : c.Forest)
include records admissible forest

/-- A table that stands on top of a group is the root that the group names. -/
theorem root {t : Table} (member : t ∈ c.tables) (top : t.parent = none) :
    ∃ g, c.group? t.group = some g ∧ g.root = t.id := by
  obtain ⟨i, inside, rfl⟩ := List.getElem_of_mem (Array.mem_toList_iff.2 member)
  have inside' : i < (declaredTables declarations).length := records.tables.length_eq ▸ inside
  have placed := (records.tables.get inside' inside).placed
  rw [List.get_eq_getElem, List.get_eq_getElem] at placed
  cases placement : (declaredTables declarations)[i].placement with
  | child parent foreignKey =>
    rw [placement] at placed
    obtain ⟨above, -, column, -, -, link, -⟩ := placed
    rw [top] at link
    cases link
  | root group =>
    rw [placement] at placed
    obtain ⟨-, position, here, number⟩ := placed
    have split := List.take_append_drop i (declaredTables declarations)
    rw [List.drop_eq_getElem_cons inside'] at split
    have free := (admissible.tables _ _ _ split.symm).placed
    rw [placement] at free
    have first : Draft.numberOf? (·.isOnTopOf group) (declaredTables declarations) = some (.ofNat (i + 1)) := by
      rw [Draft.numberOf?, List.findIdx?_eq_some_iff_getElem.2 ⟨inside', ?_, fun j before => ?_⟩]
      · rfl
      · rw [TableDeclaration.isOnTopOf, placement]
        exact decide_eq_true rfl
      · have earlier := free.2 (declaredTables declarations)[j] (List.mem_take_iff_getElem.2 ⟨j, by omega, rfl⟩)
        simpa using earlier
    have group? := congrArg (·[position]?) records.groups
    simp only [List.getElem?_map, here, Option.map_some, first, Array.getElem?_toList] at group?
    obtain ⟨g, found, same⟩ := Option.map_eq_some_iff.1 group?
    refine ⟨g, by rw [number]; exact found, ?_⟩
    refine TableId.toNat_inj.1 ?_
    have id := forest.numbered i _ (Array.getElem?_eq_getElem inside)
    rw [Option.some.inj (congrArg Prod.snd same), TableId.toNat_ofNat (by have := records.room; omega)]
    exact id.symm

/-- The root of a group has its number in the group, and no other table of the group is without a parent. -/
theorem root_unique {t : Table} (member : t ∈ c.tables) : ∃ g root, c.group? t.group = some g ∧
    c.table? g.root = some root ∧ root.parent = none ∧ root.group = t.group ∧
    (∀ r ∈ c.tables, r.group = t.group → r.parent = none → r = root) ∧ (c.path t.id).head? = some root := by
  obtain ⟨root, known, top, group, first⟩ := forest.path_head t member
  obtain ⟨g, found, is⟩ := records.root admissible forest known top
  refine ⟨g, root, group ▸ found, is ▸ forest.table?_id known, top, group, fun r known' group' top' => ?_,
    first⟩
  obtain ⟨g', found', is'⟩ := records.root admissible forest known' top'
  rw [group', ← group, found] at found'
  obtain rfl := Option.some.inj found'
  exact forest.id_inj known' known (is'.symm.trans is)

end Records

/-- What is to be found in a catalog, and where, when it has been made from declarations. -/
structure Planted (declarations : List Declaration) (c : Catalog) : Prop where
  groups : Listed Group.id GroupId.num Group.name (declaredGroups declarations) c.groups c.group? c.groupNamed?
  tables : Listed Table.id TableId.toNat Table.name ((declaredTables declarations).map (·.name)) c.tables
    c.table? c.tableNamed?
  indexes : Listed Index.id IndexId.num Index.name ((declaredIndexes declarations).map Prod.fst) c.indexes
    c.index? c.indexNamed?
  asDeclared : Records declarations c
  parents : ∀ t ∈ c.tables, ∀ link, t.parent = some link → ∃ p, c.parentOf? t.id = some p ∧ p.id = link.table ∧
    p.id.toNat < t.id.toNat ∧ p.group = t.group
  pathEnds : ∀ fuel, c.tables.size ≤ fuel → ∀ id, c.upward fuel id = (c.path id).reverse
  pathEmpty : ∀ id, c.path id = [] ↔ c.table? id = none
  path : ∀ t ∈ c.tables, ∃ g root, c.group? t.group = some g ∧ c.table? g.root = some root ∧
    root.parent = none ∧ root.group = t.group ∧
    (∀ r ∈ c.tables, r.group = t.group → r.parent = none → r = root) ∧
    (c.path t.id).head? = some root ∧ (c.path t.id).getLast? = some t ∧ ((c.path t.id).map Table.id).Nodup ∧
    (c.path t.id).IsChain fun p t => c.parentOf? t.id = some p
  ancestors : ∀ a b, c.isAncestor a b = true ↔ Relation.TransGen c.ParentOf a b
  irreflexive : ∀ a, c.isAncestor a a = false
  transitive : ∀ a b d, c.isAncestor a b = true → c.isAncestor b d = true → c.isAncestor a d = true

theorem planted_of_declarations {declarations : List Declaration} {c : Catalog}
    (ok : ofDeclarations declarations = .ok c) : Planted declarations c := by
  have judges := judges_ofDeclarations declarations
  have admissible := judges.ok_iff.1 ⟨c, ok⟩
  have records := judges.of_ok ok
  have forest := forest_of_declarations ok
  have groupNames : c.groups.toList.map Group.name = declaredGroups declarations := by
    have names := congrArg (List.map Prod.fst) records.groups
    rw [List.map_map, List.map_map] at names
    exact names.trans (List.map_id _)
  have tableNames := (map_eq_of_forall₂ records.tables fun t T same => same.name.symm).symm
  have indexNames := (map_eq_of_forall₂ records.indexes fun declared i same => same.name.symm).symm
  refine ⟨?_, ?_, ?_, records, fun t member link child => ?_, fun fuel enough => forest.upward_eq enough,
    forest.path_eq_nil_iff, fun t member => ?_, forest.isAncestor_iff, fun a => ?_,
    fun a b d first second => ?_⟩
  · exact listed_of (fun _ _ => congrArg GroupId.mk) groupNames admissible.groupNames forest.groupsNumbered
      records.groupNumbers fun _ _ => rfl
  · refine listed_of (fun _ _ => TableId.toNat_inj.1) tableNames admissible.tableNames forest.numbered
      records.tableNumbers fun n inside => ?_
    rw [List.length_map] at inside
    exact TableId.toNat_ofNat (Nat.lt_of_le_of_lt inside records.room)
  · exact listed_of (fun _ _ => congrArg IndexId.mk) indexNames admissible.indexNames
      (indexesFit_of_declarations ok).numbered records.indexNumbers fun _ _ => rfl
  · obtain ⟨p, linked, same⟩ := forest.links member child
    exact ⟨p, (forest.parentOf?_eq_some_iff member).2 ⟨_, linked⟩, same, forest.parent_lt member linked,
      forest.parent_group member linked⟩
  · obtain ⟨g, root, found, known, top, group, only, first⟩ := records.root_unique admissible forest member
    refine ⟨g, root, found, known, top, group, only, first, ?_, forest.path_nodup t member,
      forest.path_chain t member⟩
    rw [forest.path_getLast member, List.getLast?_concat]
  · refine Bool.eq_false_iff.2 fun above => ?_
    exact Nat.lt_irrefl _ (forest.lt_of_above ((forest.isAncestor_iff a a).1 above))
  · rw [forest.isAncestor_iff] at first second ⊢
    exact first.trans second

/-- Declarations make a catalog just if names of one kind differ, the tables and indexes are not too many,
every table has columns that differ and its key among them and stands on top of a group without a root or
below a table declared before it, every group has a root and every index names columns of a table. A catalog
that they make is a forest. -/
theorem forest_iff_admissible (declarations : List Declaration) :
    ((∃ c, ofDeclarations declarations = .ok c) ↔ Admissible declarations) ∧
      ∀ c, ofDeclarations declarations = .ok c → Planted declarations c :=
  ⟨(judges_ofDeclarations declarations).ok_iff, fun _ => planted_of_declarations⟩

theorem forest_iff_admissible_shop : Admissible shopDeclarations ∧ ofDeclarations shopDeclarations = .ok shop ∧
    Planted shopDeclarations shop := by
  obtain ⟨accepted, planted⟩ := forest_iff_admissible shopDeclarations
  exact ⟨accepted.1 ⟨shop, shop_accepted⟩, shop_accepted, planted shop shop_accepted⟩

end Catalog

end Interleave
