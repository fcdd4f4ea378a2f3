import Mathlib.Data.List.Nodup
import Mathlib.Data.List.Perm.Subperm
import Interleave.Proofs.Catalog.Indexes

/-!
Which declarations make a catalog. They are read in three passes, one for each kind, and a pass judges every
declaration by the ones before it. Main statement: declarations are read just if they are admissible, and a
catalog records what was declared, each kind in its order.
-/

namespace Interleave

section Judging

variable {α σ τ ε : Type}

/-- That a reading fails just where a condition does not hold, and that what is read is sound. -/
def Judges (outcome : Except ε σ) (condition : Prop) (sound : σ → Prop) : Prop :=
  match outcome with
  | .ok s => condition ∧ sound s
  | .error _ => ¬ condition

/-- That a condition holds of each of a list, with the ones before it. -/
def InTurn (condition : List α → α → Prop) (l : List α) : Prop :=
  ∀ earlier a later, l = earlier ++ a :: later → condition earlier a

namespace Judges

variable {outcome : Except ε σ} {condition condition' : Prop} {sound sound' : σ → Prop}

theorem ok_iff (judges : Judges outcome condition sound) : (∃ s, outcome = .ok s) ↔ condition := by
  rcases outcome with fault | s
  · constructor
    · rintro ⟨s, ok⟩
      cases ok
    · exact fun holds => absurd holds judges
  · exact ⟨fun _ => judges.1, fun _ => ⟨s, rfl⟩⟩

theorem of_ok (judges : Judges outcome condition sound) {s : σ} (ok : outcome = .ok s) : sound s := by
  subst ok
  exact judges.2

theorem imp (judges : Judges outcome condition sound) (same : condition ↔ condition')
    (weaker : ∀ s, outcome = .ok s → sound s → sound' s) :
    Judges outcome condition' sound' := by
  rcases outcome with fault | s
  · exact fun holds => judges (same.2 holds)
  · exact ⟨same.1 judges.1, weaker s rfl judges.2⟩

theorem map {f : σ → τ} {sound' : τ → Prop} (judges : Judges outcome condition sound)
    (next : ∀ s, sound s → sound' (f s)) : Judges (outcome.map f) condition sound' := by
  rcases outcome with fault | s
  · exact judges
  · exact ⟨judges.1, next s judges.2⟩

theorem bind {f : σ → Except ε τ} {sound' : τ → Prop} (judges : Judges outcome condition sound)
    (next : ∀ s, sound s → Judges (f s) condition' sound') :
    Judges (outcome >>= f) (condition ∧ condition') sound' := by
  rcases outcome with fault | s
  · exact fun both => judges both.1
  · exact (next s judges.2).imp ⟨fun holds => ⟨judges.1, holds⟩, And.right⟩ fun _ _ holds => holds

end Judges

theorem inTurn_nil (condition : List α → α → Prop) : InTurn condition [] :=
  fun earlier _ _ split => by cases earlier <;> cases split

theorem inTurn_cons {condition : List α → α → Prop} {a : α} {rest : List α} :
    InTurn condition (a :: rest) ↔ condition [] a ∧ InTurn (fun earlier => condition (a :: earlier)) rest := by
  constructor
  · intro all
    exact ⟨all [] a rest rfl, fun earlier b later split => all (a :: earlier) b later (by rw [split]; rfl)⟩
  · rintro ⟨first, others⟩ (_ | ⟨a', earlier⟩) b later split
    · obtain ⟨rfl, -⟩ := List.cons.inj split
      exact first
    · obtain ⟨rfl, rest⟩ := List.cons.inj split
      exact others earlier b later rest

/-- A pass that judges each by the ones before it judges them all. -/
theorem judges_foldlM {f : σ → α → Except ε σ} (condition : List α → α → Prop) (reads : List α → σ → Prop)
    (step : ∀ done s a, reads done s → Judges (f s a) (condition done a) (reads (done ++ [a])))
    {done l : List α} {s : σ} (start : reads done s) :
    Judges (l.foldlM f s) (InTurn (fun earlier => condition (done ++ earlier)) l) (reads (done ++ l)) := by
  induction l generalizing done s with
  | nil => exact ⟨inTurn_nil _, (List.append_nil done).symm ▸ start⟩
  | cons a rest ih =>
    rw [List.foldlM_cons]
    refine ((step done s a start).bind fun s' next => ih next).imp ?_ fun s' _ read => ?_
    · simp only [inTurn_cons, List.append_nil, List.append_assoc, List.singleton_append]
    · rwa [List.append_assoc] at read

theorem inTurn_and {condition condition' : List α → α → Prop} {l : List α} :
    InTurn (fun earlier a => condition earlier a ∧ condition' earlier a) l ↔
      InTurn condition l ∧ InTurn condition' l :=
  ⟨fun all => ⟨fun e a r split => (all e a r split).1, fun e a r split => (all e a r split).2⟩,
    fun both e a r split => ⟨both.1 e a r split, both.2 e a r split⟩⟩

theorem inTurn_mem {condition : α → Prop} {l : List α} :
    InTurn (fun _ => condition) l ↔ ∀ a ∈ l, condition a := by
  constructor
  · intro all a member
    obtain ⟨earlier, later, split⟩ := List.append_of_mem member
    exact all earlier a later split
  · rintro all earlier a later rfl
    exact all a (List.mem_append_right _ List.mem_cons_self)

theorem inTurn_length {bound : Nat} {l : List α} (positive : 0 < bound) :
    InTurn (fun earlier _ => earlier.length + 1 < bound) l ↔ l.length < bound := by
  constructor
  · intro all
    rcases l.eq_nil_or_concat with rfl | ⟨front, last, rfl⟩
    · exact positive
    · rw [List.concat_eq_append, List.length_append]
      exact all front last [] List.concat_eq_append
  · rintro less earlier a later rfl
    rw [List.length_append, List.length_cons] at less
    omega

theorem inTurn_fresh {β : Type} {name : α → β} {l : List α} :
    InTurn (fun earlier a => name a ∉ earlier.map name) l ↔ (l.map name).Nodup := by
  induction l with
  | nil => exact ⟨fun _ => List.nodup_nil, fun _ => inTurn_nil _⟩
  | cons a rest ih =>
    have others : InTurn (fun earlier b => name b ∉ (a :: earlier).map name) rest ↔
        (∀ b ∈ rest, name b ≠ name a) ∧ (rest.map name).Nodup := by
      simp only [List.map_cons, List.mem_cons, not_or]
      rw [inTurn_and, inTurn_mem, ih]
    rw [inTurn_cons, others, List.map_cons, List.nodup_cons]
    constructor
    · rintro ⟨-, apart, distinct⟩
      refine ⟨fun member => ?_, distinct⟩
      obtain ⟨b, inside, same⟩ := List.mem_map.1 member
      exact apart b inside same
    · rintro ⟨apart, distinct⟩
      exact ⟨List.not_mem_nil, fun b inside same => apart (List.mem_map.2 ⟨b, inside, same⟩), distinct⟩

theorem map_eq_of_forall₂ {β γ : Type} {R : α → β → Prop} {f : α → γ} {g : β → γ} {as : List α} {bs : List β}
    (related : List.Forall₂ R as bs) (same : ∀ a b, R a b → f a = g b) : as.map f = bs.map g := by
  induction related with
  | nil => rfl
  | cons first _ ih => rw [List.map_cons, List.map_cons, same _ _ first, ih]

end Judging

section Declared

/-- Whether a table is declared on top of a group. -/
def TableDeclaration.isOnTopOf (t : TableDeclaration) (group : String) : Bool :=
  match t.placement with
  | .root top => top = group
  | .child _ _ => false

/-- Whether a table may be declared after others. -/
structure TableDeclaration.Follows (groups : List String) (earlier : List TableDeclaration)
    (t : TableDeclaration) : Prop where
  columns : t.columns.Nodup
  primaryKey : t.primaryKey ∈ t.columns
  placed : match t.placement with
    | .root group => group ∈ groups ∧ ∀ e ∈ earlier, e.isOnTopOf group = false
    | .child parent foreignKey => (∃ e ∈ earlier, e.name = parent) ∧ foreignKey ∈ t.columns

variable (declarations : List Declaration)

def declaredGroups : List String := declarations.filterMap Declaration.group?

def declaredTables : List TableDeclaration := declarations.filterMap Declaration.table?

def declaredIndexes : List (String × String × List String) := declarations.filterMap Declaration.index?

/-- Whether an index names a declared table and columns of it. -/
def IndexFits (tables : List TableDeclaration) (declared : String × String × List String) : Prop :=
  declared.2.2 ≠ [] ∧ ∃ t ∈ tables, t.name = declared.2.1 ∧ ∀ c ∈ declared.2.2, c ∈ t.columns

/-- Whether declarations make a catalog. -/
structure Admissible : Prop where
  groupNames : (declaredGroups declarations).Nodup
  tableNames : ((declaredTables declarations).map (·.name)).Nodup
  indexNames : ((declaredIndexes declarations).map Prod.fst).Nodup
  tableCount : (declaredTables declarations).length ≤ 65535
  indexCount : (declaredIndexes declarations).length < 4294967296
  tables : InTurn (TableDeclaration.Follows (declaredGroups declarations)) (declaredTables declarations)
  rooted : ∀ group ∈ declaredGroups declarations, ∃ t ∈ declaredTables declarations, t.isOnTopOf group = true
  indexes : ∀ i ∈ declaredIndexes declarations, IndexFits (declaredTables declarations) i

end Declared

namespace Draft

theorem judges_column (table : String) (columns : List String) (name : String) :
    Judges (column table columns name) (name ∈ columns) fun position => columns[position]? = some name := by
  rw [column]
  split
  · next position found =>
    obtain ⟨inside, here, -⟩ := List.findIdx?_eq_some_iff_getElem.1 found
    have here := of_decide_eq_true here
    exact ⟨here ▸ List.getElem_mem inside, here ▸ List.getElem?_eq_getElem inside⟩
  · next absent =>
    exact fun member => of_decide_eq_false (List.findIdx?_eq_none_iff.1 absent name member) rfl

theorem judges_columnPositions (t : Table) (names : List String) :
    Judges (columnPositions t names) (∀ name ∈ names, name ∈ t.columns) fun positions =>
      positions.map (t.columns[·]?) = names.map some := by
  induction names with
  | nil => exact ⟨List.forall_mem_nil _, rfl⟩
  | cons name rest ih =>
    have first := judges_column t.name t.columns name
    rw [columnPositions, List.forall_mem_cons]
    split
    · next fault failed =>
      rw [failed] at first
      exact fun both => first both.1
    · next position found =>
      rw [found] at first
      refine (ih.map fun positions read => ?_).imp ⟨fun others => ⟨first.1, others⟩, And.right⟩
        fun _ _ read => read
      rw [List.map_cons, List.map_cons, first.2, read]

/-- A column is repeated unless they all differ. -/
theorem repeated?_eq_none_iff {seen columns : List String} :
    repeated? seen columns = none ↔ columns.Nodup ∧ ∀ c ∈ columns, c ∉ seen := by
  induction columns generalizing seen with
  | nil => simp [repeated?]
  | cons c rest ih =>
    rw [repeated?, List.nodup_cons, List.forall_mem_cons]
    by_cases old : c ∈ seen
    · simp [old]
    · rw [if_neg (by simpa using old), ih]
      simp only [List.mem_cons, not_or]
      grind

/-- The number of the first declared table that passes a test. -/
def numberOf? (test : TableDeclaration → Bool) (tables : List TableDeclaration) : Option TableId :=
  (tables.findIdx? test).map fun position => TableId.ofNat (position + 1)

theorem numberOf?_eq_none_iff {test : TableDeclaration → Bool} {tables : List TableDeclaration} :
    numberOf? test tables = none ↔ ∀ t ∈ tables, test t = false := by
  rw [numberOf?, Option.map_eq_none_iff, List.findIdx?_eq_none_iff]

theorem numberOf?_concat {test : TableDeclaration → Bool} {tables : List TableDeclaration}
    {t : TableDeclaration} :
    numberOf? test (tables ++ [t]) = (numberOf? test tables).or
      (if test t then some (.ofNat (tables.length + 1)) else none) := by
  rw [numberOf?, numberOf?, List.findIdx?_append]
  cases tables.findIdx? test with
  | some position => rfl
  | none => cases passes : test t <;> simp [passes]

/-- A new root changes what is known of its own group alone. -/
theorem roots_set {groups : List String} {done : List TableDeclaration} {t : TableDeclaration} {id : TableId}
    {group : String} {position : Nat} (distinct : groups.Nodup) (placement : t.placement = .root group)
    (number : id = .ofNat (done.length + 1)) (here : groups[position]? = some group)
    (none : numberOf? (·.isOnTopOf group) done = none) :
    (groups.map fun group => numberOf? (·.isOnTopOf group) done).set position (some id) =
      groups.map fun group => numberOf? (·.isOnTopOf group) (done ++ [t]) := by
  have inside : position < groups.length := (List.getElem?_eq_some_iff.1 here).1
  have top (other : String) : t.isOnTopOf other = decide (group = other) := by
    rw [TableDeclaration.isOnTopOf, placement]
  apply List.ext_getElem?
  intro i
  rw [List.getElem?_set, List.length_map, List.getElem?_map, List.getElem?_map]
  by_cases this : position = i
  · subst this
    rw [if_pos rfl, if_pos inside, here, Option.map_some, numberOf?_concat, none, top, number]
    simp
  · rw [if_neg this]
    cases other : groups[i]? with
    | none => rfl
    | some g =>
      have apart : group ≠ g := by
        rintro rfl
        exact this ((List.getElem?_inj inside distinct).1 (here.trans other.symm))
      rw [Option.map_some, Option.map_some, numberOf?_concat, top, decide_eq_false apart]
      simp

/-- Whether a table is what was declared. -/
structure Matches (groups : List String) (tables : Array Table) (t : TableDeclaration) (T : Table) : Prop where
  name : T.name = t.name
  columns : T.columns = t.columns
  primaryKey : t.columns[T.primaryKey]? = some t.primaryKey
  placed : match t.placement with
    | .root group => T.parent = none ∧ ∃ position, groups[position]? = some group ∧ T.group = ⟨position + 1⟩
    | .child parent foreignKey => ∃ above ∈ tables, ∃ column, above.name = parent ∧
        t.columns[column]? = some foreignKey ∧ T.parent = some ⟨above.id, column⟩ ∧ T.group = above.group

/-- Whether a draft holds what has been declared so far. -/
structure Reads (groups : List String) (done : List TableDeclaration) (d : Draft) : Prop where
  room : done.length < UInt16.size
  groupNames : groups.Nodup
  tableNames : (done.map (·.name)).Nodup
  groups_eq : d.groups.toList = groups
  tables : List.Forall₂ (Matches groups d.tables) done d.tables.toList
  groupNumbers : Numbers GroupId.mk d.groupNames groups
  tableNumbers : Numbers TableId.ofNat d.tableNames (done.map (·.name))
  roots : d.roots.toList = groups.map fun group => numberOf? (·.isOnTopOf group) done

theorem Matches.push {groups : List String} {tables : Array Table} {t : TableDeclaration} {T : Table}
    (same : Matches groups tables t T) (T' : Table) : Matches groups (tables.push T') t T := by
  refine { same with placed := ?_ }
  have placed := same.placed
  cases placement : t.placement with
  | root group => rwa [placement] at placed
  | child parent foreignKey =>
    rw [placement] at placed
    obtain ⟨above, member, rest⟩ := placed
    exact ⟨above, Array.mem_push_of_mem _ member, rest⟩

namespace Reads

variable {groups : List String} {done : List TableDeclaration} {d : Draft} (reads : d.Reads groups done)
include reads

theorem length_eq : done.length = d.tables.size := reads.tables.length_eq

/-- A name finds the table that was declared under it, if there is one. -/
theorem tableNamed?_cases (name : String) :
    (d.tableNamed? name = none ∧ ∀ t ∈ done, t.name ≠ name) ∨
      ∃ t ∈ done, ∃ T ∈ d.tables, t.name = name ∧ d.tableNamed? name = some T ∧
        Matches groups d.tables t T := by
  rw [tableNamed?, reads.tableNumbers, List.findIdx?_map]
  cases found : done.findIdx? ((fun other => decide (other = name)) ∘ (·.name)) with
  | none => exact .inl ⟨rfl, fun t member => of_decide_eq_false (List.findIdx?_eq_none_iff.1 found t member)⟩
  | some position =>
    obtain ⟨inside, here, -⟩ := List.findIdx?_eq_some_iff_getElem.1 found
    have inside' : position < d.tables.size := reads.length_eq ▸ inside
    have number : (TableId.ofNat (position + 1)).toNat = position + 1 :=
      TableId.toNat_ofNat (by have := reads.room; omega)
    refine .inr ⟨done[position], List.getElem_mem inside, d.tables[position], Array.getElem_mem inside',
      of_decide_eq_true here, ?_, reads.tables.get inside inside'⟩
    rw [Option.map_some, Option.bind_some, number]
    exact Array.getElem?_eq_getElem inside'

theorem push {r : Array (Option TableId)} {t : TableDeclaration} {T : Table}
    (room : done.length + 1 < UInt16.size) (number : T.id = .ofNat (done.length + 1))
    (same : Matches groups d.tables t T) (fresh : t.name ∉ done.map (·.name))
    (roots : r.toList = groups.map fun group => numberOf? (·.isOnTopOf group) (done ++ [t])) :
    ({ d with roots := r }.push T).Reads groups (done ++ [t]) where
  room := by rwa [List.length_append]
  groupNames := reads.groupNames
  tableNames := by
    rw [List.map_append, List.map_singleton, ← List.concat_eq_append]
    exact reads.tableNames.concat fresh
  groups_eq := reads.groups_eq
  tables := by
    rw [Draft.push, Array.toList_push]
    exact List.rel_append (reads.tables.imp fun t T same => same.push _) (.cons (same.push T) .nil)
  groupNumbers := reads.groupNumbers
  tableNumbers := by
    rw [Draft.push, same.name, number, List.map_append]
    simpa using reads.tableNumbers.concat fresh
  roots := roots

section Tables

variable {t : TableDeclaration} {T : Table} (room : done.length + 1 < UInt16.size)
  (number : T.id = .ofNat (done.length + 1)) (name : T.name = t.name) (columns : T.columns = t.columns)
  (key : t.columns[T.primaryKey]? = some t.primaryKey) (fresh : t.name ∉ done.map (·.name))
include room number name columns key fresh

/-- A root is read unless its group is unknown or has a root. -/
theorem judges_addRoot {group : String} (placement : t.placement = .root group)
    (top : T.parent = none) :
    Judges (d.addRoot T group) (group ∈ groups ∧ ∀ e ∈ done, e.isOnTopOf group = false)
      (Reads groups (done ++ [t])) := by
  rw [addRoot]
  split
  · next absent =>
    rintro ⟨member, -⟩
    have known := reads.groupNumbers.contains_iff.2 member
    rw [Std.HashMap.contains_eq_isSome_getElem?, absent] at known
    cases known
  · next id found =>
    obtain ⟨position, at', rfl⟩ := reads.groupNumbers.place found
    have root : Catalog.numbered? d.roots (position + 1) = some (numberOf? (·.isOnTopOf group) done) := by
      rw [Catalog.numbered?, ← Array.getElem?_toList, reads.roots, List.getElem?_map, at']
      rfl
    rw [root]
    cases none : numberOf? (·.isOnTopOf group) done with
    | some taken =>
      rintro ⟨-, free⟩
      rw [numberOf?_eq_none_iff.2 free] at none
      cases none
    | none =>
      refine ⟨⟨List.mem_of_getElem? at', numberOf?_eq_none_iff.1 none⟩, ?_⟩
      refine reads.push room number ⟨name, columns, key, ?_⟩ fresh ?_
      · rw [placement]
        exact ⟨top, position, at', rfl⟩
      · rw [Array.toList_setIfInBounds, reads.roots]
        exact roots_set reads.groupNames placement number at' none

/-- A child is read unless its parent is unknown or it has no such column. -/
theorem judges_addChild {parent foreignKey : String} (placement : t.placement = .child parent foreignKey) :
    Judges (d.addChild T parent foreignKey) ((∃ e ∈ done, e.name = parent) ∧ foreignKey ∈ t.columns)
      (Reads groups (done ++ [t])) := by
  rw [addChild]
  rcases reads.tableNamed?_cases parent with ⟨absent, others⟩ | ⟨e, member, above, known, named, found, same⟩
  · rw [absent]
    exact fun both => both.1.elim fun e here => others e here.1 here.2
  · rw [found]
    refine ((judges_column T.name T.columns foreignKey).map fun position at' => ?_).imp ?_ fun _ _ read => read
    · have roots : d.roots.toList = groups.map fun group => numberOf? (·.isOnTopOf group) (done ++ [t]) := by
        simp [reads.roots, numberOf?_concat, TableDeclaration.isOnTopOf, placement]
      refine reads.push room number ⟨name, columns, key, ?_⟩ fresh roots
      rw [placement]
      exact ⟨above, known, position, same.name.trans named, columns ▸ at', rfl, rfl⟩
    · rw [columns]
      exact ⟨fun here => ⟨⟨e, member, named⟩, here⟩, And.right⟩

end Tables

/-- A table is read unless it may not be declared there. -/
theorem judges_addTable (t : TableDeclaration) :
    Judges (d.addTable t)
      (done.length + 1 < UInt16.size ∧ t.name ∉ done.map (·.name) ∧ t.Follows groups done)
      (Reads groups (done ++ [t])) := by
  rw [addTable]
  dsimp only
  rw [← reads.length_eq]
  split
  · next full => exact fun all => Nat.not_lt.2 full all.1
  next room =>
  split
  · next old => exact fun all => all.2.1 (reads.tableNumbers.contains_iff.1 old)
  next fresh =>
  split
  · next c twice =>
    rintro ⟨-, -, follows⟩
    rw [repeated?_eq_none_iff.2 ⟨follows.columns, fun _ _ => List.not_mem_nil⟩] at twice
    cases twice
  next columns =>
  have judged := judges_column t.name t.columns t.primaryKey
  split
  · next fault failed =>
    rw [failed] at judged
    exact fun all => judged all.2.2.primaryKey
  next primaryKey found =>
  rw [found] at judged
  have columns := (repeated?_eq_none_iff.1 columns).1
  have room := Nat.not_le.1 room
  have fresh : t.name ∉ done.map (·.name) := fun old => fresh (reads.tableNumbers.contains_iff.2 old)
  cases placement : t.placement with
  | root group =>
    refine (reads.judges_addRoot room rfl rfl rfl judged.2 fresh placement rfl).imp ?_
      fun _ _ read => read
    constructor
    · exact fun placed => ⟨room, fresh, columns, judged.1, placement ▸ placed⟩
    · rintro ⟨-, -, follows⟩
      simpa [placement] using follows.placed
  | child parent foreignKey =>
    refine (reads.judges_addChild room rfl rfl rfl judged.2 fresh placement).imp ?_ fun _ _ read => read
    constructor
    · exact fun placed => ⟨room, fresh, columns, judged.1, placement ▸ placed⟩
    · rintro ⟨-, -, follows⟩
      simpa [placement] using follows.placed

end Reads

theorem reads_empty : empty.Reads [] [] :=
  ⟨by decide, List.nodup_nil, List.nodup_nil, rfl, .nil, .empty, .empty, rfl⟩

theorem Reads.judges_addGroup {groups : List String} {d : Draft} (reads : d.Reads groups []) (name : String) :
    Judges (d.addGroup name) (groups.length + 1 < UInt32.size ∧ name ∉ groups)
      fun d => d.Reads (groups ++ [name]) [] := by
  have size : d.groups.size = groups.length := by rw [← reads.groups_eq, Array.length_toList]
  rw [addGroup, size]
  split
  · next full => exact fun both => Nat.not_lt.2 full both.1
  next room =>
  split
  · next old => exact fun both => both.2 (reads.groupNumbers.contains_iff.1 old)
  next fresh =>
  have fresh : name ∉ groups := fun old => fresh (reads.groupNumbers.contains_iff.2 old)
  refine ⟨⟨Nat.not_le.1 room, fresh⟩, reads.room, ?_, reads.tableNames, ?_, ?_,
    reads.groupNumbers.concat fresh, reads.tableNumbers, ?_⟩
  · rw [← List.concat_eq_append]
    exact reads.groupNames.concat fresh
  · rw [Array.toList_push, reads.groups_eq]
  · have none := List.eq_nil_of_length_eq_zero reads.tables.length_eq.symm
    rw [none]
    exact .nil
  · rw [Array.toList_push, reads.roots, List.map_append]
    rfl

/-- Groups are given their roots just if each has one. -/
theorem Reads.judges_rooted {groups : List String} {tables : List TableDeclaration} {d : Draft}
    (reads : d.Reads groups tables) :
    Judges d.rooted (∀ group ∈ groups, ∃ t ∈ tables, t.isOnTopOf group = true) fun gs =>
      gs.toList.map (fun g => (g.name, some g.root)) =
        groups.map fun group => (group, numberOf? (·.isOnTopOf group) tables) := by
  have pairs : d.groups.toList.zip d.roots.toList =
      groups.map fun group => (group, numberOf? (·.isOnTopOf group) tables) := by
    rw [reads.groups_eq, reads.roots]
    conv_lhs => rw [← List.map_id groups]
    rw [List.map_map, List.zip_map']
    rfl
  rw [rooted, pairs]
  refine (judges_foldlM (fun _ pair => pair.2 ≠ none)
    (fun done (gs : Array Group) => gs.toList.map (fun g => (g.name, some g.root)) = done)
    (fun done gs pair read => ?_) rfl).imp ?_ fun _ _ read => read
  · obtain ⟨name, root⟩ := pair
    cases root with
    | none => exact fun some => some rfl
    | some root =>
      refine ⟨Option.some_ne_none root, ?_⟩
      dsimp only
      rw [Array.toList_push, List.map_append, read]
      rfl
  · rw [inTurn_mem, List.forall_mem_map]
    refine forall₂_congr fun group _ => ?_
    rw [Ne, numberOf?_eq_none_iff]
    simp

/-- Whether an index is what was declared. -/
structure MatchesIndex (tables : Array Table) (declared : String × String × List String) (i : Index) :
    Prop where
  name : i.name = declared.1
  table : ∃ T ∈ tables, T.name = declared.2.1 ∧ i.table = T.id ∧
    i.columns.map (T.columns[·]?) = declared.2.2.map some

/-- Whether the indexes declared so far have been read. -/
structure ReadsIndexes (d : Draft) (done : List (String × String × List String)) (read : IndexDraft) :
    Prop where
  indexes : List.Forall₂ (MatchesIndex d.tables) done read.indexes.toList
  numbers : Numbers IndexId.mk read.names (done.map Prod.fst)

theorem Reads.judges_addIndex {groups : List String} {tables : List TableDeclaration} {d : Draft}
    (reads : d.Reads groups tables) {done : List (String × String × List String)} {read : IndexDraft}
    (indexed : d.ReadsIndexes done read) (declared : String × String × List String) :
    Judges (d.addIndex read declared)
      (done.length + 1 < UInt32.size ∧ declared.1 ∉ done.map Prod.fst ∧ IndexFits tables declared)
      (d.ReadsIndexes (done ++ [declared])) := by
  obtain ⟨name, table, columns⟩ := declared
  have size : read.indexes.size = done.length := by rw [indexed.indexes.length_eq, Array.length_toList]
  have names : read.names.contains name = true ↔ name ∈ done.map Prod.fst := indexed.numbers.contains_iff
  rw [addIndex]
  dsimp only
  split
  · next full => exact fun all => Nat.not_lt.2 (size ▸ full) all.1
  next room =>
  split
  · next old => exact fun all => all.2.1 (names.1 old)
  next fresh =>
  rcases reads.tableNamed?_cases table with ⟨absent, others⟩ | ⟨t, member, T, known, named, found, same⟩
  · rw [absent]
    exact fun all => all.2.2.2.elim fun t here => others t here.1 here.2.1
  rw [found]
  dsimp only
  split
  · next none => exact fun all => all.2.2.1 (List.isEmpty_iff.1 none)
  next some =>
  refine ((judges_columnPositions T columns).map fun positions at' => ?_).imp ?_ fun _ _ read => read
  · constructor
    · rw [Array.toList_push]
      exact List.rel_append indexed.indexes (.cons ⟨rfl, T, known, same.name.trans named, rfl, at'⟩ .nil)
    · rw [size, List.map_append]
      simpa using indexed.numbers.concat fun old => fresh (names.2 old)
  · constructor
    · intro fits
      exact ⟨size ▸ Nat.not_le.1 room, fun old => fresh (names.2 old),
        fun none => some (List.isEmpty_iff.2 none), t, member, named, same.columns ▸ fits⟩
    · rintro ⟨-, -, -, t', member', named', fits⟩
      obtain rfl := List.inj_on_of_nodup_map reads.tableNames member' member (named'.trans named.symm)
      exact same.columns ▸ fits

end Draft

/-- There is a root for each group, so there are no more groups than tables. -/
theorem length_groups_le {groups : List String} {tables : List TableDeclaration} (distinct : groups.Nodup)
    (rooted : ∀ group ∈ groups, ∃ t ∈ tables, t.isOnTopOf group = true) : groups.length ≤ tables.length := by
  let top? (t : TableDeclaration) : Option String :=
    match t.placement with
    | .root group => some group
    | .child _ _ => none
  have known : groups ⊆ tables.filterMap top? := by
    intro group member
    obtain ⟨t, declared, top⟩ := rooted group member
    refine List.mem_filterMap.2 ⟨t, declared, ?_⟩
    cases placement : t.placement with
    | root other => simpa [TableDeclaration.isOnTopOf, placement, top?] using top
    | child parent foreignKey => simp [TableDeclaration.isOnTopOf, placement] at top
  exact Nat.le_trans (List.subperm_of_subset distinct known).length_le (List.length_filterMap_le top? tables)

namespace Catalog

/-- Whether a catalog records what was declared. -/
structure Records (declarations : List Declaration) (c : Catalog) : Prop where
  room : (declaredTables declarations).length < UInt16.size
  groupNames : (declaredGroups declarations).Nodup
  tableNames : ((declaredTables declarations).map (·.name)).Nodup
  groups : c.groups.toList.map (fun g => (g.name, some g.root)) =
    (declaredGroups declarations).map fun group =>
      (group, Draft.numberOf? (·.isOnTopOf group) (declaredTables declarations))
  tables : List.Forall₂ (Draft.Matches (declaredGroups declarations) c.tables) (declaredTables declarations)
    c.tables.toList
  indexes : List.Forall₂ (Draft.MatchesIndex c.tables) (declaredIndexes declarations) c.indexes.toList
  groupNumbers : Numbers GroupId.mk c.groupNames (declaredGroups declarations)
  tableNumbers : Numbers TableId.ofNat c.tableNames ((declaredTables declarations).map (·.name))
  indexNumbers : Numbers IndexId.mk c.indexNames ((declaredIndexes declarations).map Prod.fst)

/-- What the passes ask for in turn is what makes declarations admissible. -/
theorem admissible_iff (declarations : List Declaration) :
    Admissible declarations ↔
      InTurn (fun earlier name => earlier.length + 1 < UInt32.size ∧ name ∉ earlier)
        (declaredGroups declarations) ∧
      InTurn (fun earlier t => earlier.length + 1 < UInt16.size ∧ t.name ∉ earlier.map (·.name) ∧
        t.Follows (declaredGroups declarations) earlier) (declaredTables declarations) ∧
      (∀ group ∈ declaredGroups declarations, ∃ t ∈ declaredTables declarations, t.isOnTopOf group = true) ∧
      InTurn (fun earlier i => earlier.length + 1 < UInt32.size ∧ i.1 ∉ earlier.map Prod.fst ∧
        IndexFits (declaredTables declarations) i) (declaredIndexes declarations) := by
  have names : InTurn (fun earlier name => name ∉ earlier) (declaredGroups declarations) ↔
      (declaredGroups declarations).Nodup := by
    have fresh : InTurn (fun earlier name => id name ∉ earlier.map id) (declaredGroups declarations) ↔
        ((declaredGroups declarations).map id).Nodup := inTurn_fresh
    simpa only [id_eq, List.map_id] using fresh
  simp only [inTurn_and, names]
  rw [inTurn_length (by decide), inTurn_length (by decide), inTurn_length (by decide), inTurn_fresh,
    inTurn_fresh, inTurn_mem]
  constructor
  · intro fine
    have count := length_groups_le fine.groupNames fine.rooted
    have room := fine.tableCount
    exact ⟨⟨by rw [UInt32.size]; omega, fine.groupNames⟩,
      ⟨Nat.lt_succ_of_le room, fine.tableNames, fine.tables⟩, fine.rooted, fine.indexCount, fine.indexNames,
      fine.indexes⟩
  · rintro ⟨⟨-, groupNames⟩, ⟨room, tableNames, tables⟩, rooted, indexCount, indexNames, indexes⟩
    exact ⟨groupNames, tableNames, indexNames, Nat.le_of_lt_succ room, indexCount, tables, rooted, indexes⟩

theorem judges_ofDeclarations (declarations : List Declaration) :
    Judges (ofDeclarations declarations) (Admissible declarations) (Records declarations) := by
  rw [admissible_iff]
  have groups : Judges ((declaredGroups declarations).foldlM Draft.addGroup Draft.empty)
      (InTurn (fun earlier name => earlier.length + 1 < UInt32.size ∧ name ∉ earlier)
        (declaredGroups declarations))
      (Draft.Reads (declaredGroups declarations) []) :=
    judges_foldlM (fun earlier name => earlier.length + 1 < UInt32.size ∧ name ∉ earlier)
      (fun done d => Draft.Reads done [] d) (fun done d name reads => reads.judges_addGroup name)
      Draft.reads_empty
  have tables (d : Draft) (reads : d.Reads (declaredGroups declarations) []) :=
    judges_foldlM _ (Draft.Reads (declaredGroups declarations))
      (fun done d t reads => reads.judges_addTable t) reads (l := declaredTables declarations)
  have indexes (d : Draft) (reads : d.Reads (declaredGroups declarations) (declaredTables declarations)) :=
    judges_foldlM _ d.ReadsIndexes (fun done read i indexed => reads.judges_addIndex indexed i)
      ⟨.nil, .empty⟩ (l := declaredIndexes declarations) (s := ⟨#[], ∅⟩)
  refine groups.bind fun named reads => (tables named reads).bind fun draft reads =>
    reads.judges_rooted.bind fun gs rooted => ?_
  refine ((indexes draft reads).map fun done read => ?_).imp Iff.rfl fun _ _ read => read
  exact ⟨reads.room, reads.groupNames, reads.tableNames, rooted, reads.tables, read.indexes,
    reads.groupNumbers, reads.tableNumbers, read.numbers⟩

end Catalog

end Interleave
