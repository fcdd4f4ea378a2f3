import Interleave.Proofs.Catalog.Trees
import Interleave.RowType

/-!
Names of columns. A row type calls its columns by full names, a dot between table and column, and both parts
may have dots of their own. A full name goes first; any other name is looked for at the ends of full names,
where it is found after a dot of a column's or a table's name too. Main statement: in a join of tables, a
column's name that is no full name leads to the leftmost table with such a column, at that table's offset, if
no column before it ends like the name.
-/

namespace Interleave

/-- A text after a dot ends a dotted text in one of three ways: it is all that follows the dot between the
halves, it stands within that, or it takes a dot of the front half. -/
theorem dot_suffix_iff {front back name : List Char} :
    '.' :: name <:+ front ++ '.' :: back ↔
      back = name ∨ '.' :: name <:+ back ∨ ∃ part, '.' :: part <:+ front ∧ name = part ++ '.' :: back := by
  constructor
  · rintro ⟨left, whole⟩
    rcases List.append_eq_append_iff.1 whole with ⟨middle, same, rest⟩ | ⟨middle, rfl, rest⟩
    · cases middle with
      | nil => exact .inl (List.cons.inj rest).2.symm
      | cons d part =>
        obtain ⟨rfl, rfl⟩ := List.cons.inj rest
        exact .inr (.inr ⟨part, ⟨left, same.symm⟩, rfl⟩)
    · cases middle with
      | nil => exact .inl (List.cons.inj rest).2
      | cons d middle =>
        obtain ⟨-, rfl⟩ := List.cons.inj rest
        exact .inr (.inl ⟨middle, rfl⟩)
  · rintro (rfl | inside | ⟨part, ⟨left, rfl⟩, rfl⟩)
    · exact List.suffix_append front _
    · exact inside.trans ((List.suffix_cons '.' back).trans (List.suffix_append front _))
    · exact ⟨left, by simp⟩

theorem endsWith_dot_iff {text name : String} :
    RowType.endsWith text ("." ++ name) = true ↔ '.' :: name.toList <:+ text.toList := by
  rw [RowType.endsWith, List.isSuffixOf_iff_suffix, String.toList_append]
  rfl

namespace Table

/-- Whether a column of another name is heard as `name`: its own name ends like it after a dot, or `name` is
the column's with the end of the table's. -/
def Echoes (t : Table) (column name : String) : Prop :=
  RowType.endsWith column ("." ++ name) = true ∨
    ∃ part, RowType.endsWith t.name ("." ++ part) = true ∧ name = part ++ "." ++ column

theorem toList_qualified (t : Table) (column : String) :
    (t.qualified column).toList = t.name.toList ++ '.' :: column.toList := by
  simp [qualified]

theorem endsWith_qualified_iff (t : Table) (column name : String) :
    RowType.endsWith (t.qualified column) ("." ++ name) = true ↔ column = name ∨ t.Echoes column name := by
  rw [endsWith_dot_iff, toList_qualified, dot_suffix_iff, String.toList_inj, Echoes, endsWith_dot_iff]
  refine or_congr_right (or_congr_right ?_)
  constructor
  · rintro ⟨part, ends, same⟩
    refine ⟨String.ofList part, endsWith_dot_iff.2 (by rwa [String.toList_ofList]), ?_⟩
    rw [← String.toList_inj, same]
    simp
  · rintro ⟨part, ends, rfl⟩
    exact ⟨part.toList, endsWith_dot_iff.1 ends, by simp⟩

/-- A full name is longer than the column's. -/
theorem qualified_ne (t : Table) (column : String) : t.qualified column ≠ column := by
  intro same
  have lengths := congrArg (fun s : String => s.toList.length) same
  simp only [toList_qualified, List.length_append, List.length_cons] at lengths
  omega

/-- Names without dots are heard for no others. -/
theorem not_echoes {t : Table} {column name : String} (plain : '.' ∉ column.toList)
    (plain' : '.' ∉ name.toList) : ¬ t.Echoes column name := by
  rintro (ends | ⟨part, -, rfl⟩)
  · exact plain ((endsWith_dot_iff.1 ends).subset List.mem_cons_self)
  · exact plain' (by simp)

end Table

theorem findIdx?_length_iff {α : Type} {p : α → Bool} {left rest : List α} {x : α} :
    (left ++ x :: rest).findIdx? p = some left.length ↔ p x = true ∧ ∀ y ∈ left, p y = false := by
  rw [← List.findIdx?_eq_none_iff, List.findIdx?_append, List.findIdx?_cons]
  cases found : left.findIdx? p with
  | none =>
    cases p x with
    | true => simp
    | false => cases rest.findIdx? p <;> simp
  | some i =>
    have inside := (List.findIdx?_eq_some_iff_getElem.1 found).1
    simp [Nat.ne_of_lt inside]

/-- The columns of tables from left to right, each with its table. -/
def columnsOf (tables : List Table) : List (Table × String) :=
  tables.flatMap fun t => t.columns.map fun column => (t, column)

theorem mem_columnsOf {tables : List Table} {x : Table × String} :
    x ∈ columnsOf tables ↔ x.1 ∈ tables ∧ x.2 ∈ x.1.columns := by
  obtain ⟨t, column⟩ := x
  simp only [columnsOf, List.mem_flatMap, List.mem_map, Prod.mk.injEq]
  constructor
  · rintro ⟨t, member, column, inside, rfl, rfl⟩
    exact ⟨member, inside⟩
  · rintro ⟨member, inside⟩
    exact ⟨t, member, column, inside, rfl, rfl⟩

theorem length_columnsOf (tables : List Table) :
    (columnsOf tables).length = (tables.flatMap Table.columns).length := by
  have names : (columnsOf tables).map Prod.snd = tables.flatMap Table.columns := by
    simp [columnsOf, List.map_flatMap, Function.comp_def]
  rw [← names, List.length_map]

/-- The columns before a table's column, of that table and of those to its left. -/
def columnsBefore (before : List Table) (t : Table) (position : Nat) : List (Table × String) :=
  columnsOf before ++ (t.columns.take position).map fun column => (t, column)

section Position

variable {before after : List Table} {t : Table} {name : String} {position : Nat}

theorem mem_columnsBefore {x : Table × String} :
    x ∈ columnsBefore before t position ↔
      (x.1 ∈ before ∧ x.2 ∈ x.1.columns) ∨ (x.1 = t ∧ x.2 ∈ t.columns.take position) := by
  rw [columnsBefore, List.mem_append, mem_columnsOf, List.mem_map]
  refine or_congr_right ⟨?_, ?_⟩
  · rintro ⟨column, inside, rfl⟩
    exact ⟨rfl, inside⟩
  · rintro ⟨rfl, inside⟩
    exact ⟨x.2, inside, rfl⟩

variable (found : t.columns[position]? = some name)
include found

theorem columns_split : ∃ later, t.columns = t.columns.take position ++ name :: later := by
  obtain ⟨inside, here⟩ := List.getElem?_eq_some_iff.1 found
  exact ⟨t.columns.drop (position + 1), by
    rw [← here, ← List.drop_eq_getElem_cons inside, List.take_append_drop]⟩

theorem length_take_columns : (t.columns.take position).length = position := by
  rw [List.length_take, Nat.min_eq_left (Nat.le_of_lt (List.getElem?_eq_some_iff.1 found).1)]

theorem columnsOf_split :
    ∃ rest, columnsOf (before ++ t :: after) = columnsBefore before t position ++ (t, name) :: rest := by
  obtain ⟨later, own⟩ := columns_split found
  refine ⟨later.map (fun column => (t, column)) ++ columnsOf after, ?_⟩
  have split : columnsOf (before ++ t :: after) =
      columnsOf before ++ (t.columns.map (fun column => (t, column)) ++ columnsOf after) := by
    simp [columnsOf]
  rw [split, columnsBefore]
  conv_lhs => rw [own]
  simp

theorem length_columnsBefore :
    (columnsBefore before t position).length = (before.flatMap Table.columns).length + position := by
  rw [columnsBefore, List.length_append, length_columnsOf, List.length_map, length_take_columns found]

section Distinct

variable (distinct : t.columns.Nodup)
include distinct

theorem not_mem_take_columns : name ∉ t.columns.take position := by
  obtain ⟨later, own⟩ := columns_split found
  rw [own] at distinct
  exact fun earlier => (List.nodup_append.1 distinct).2.2 name earlier name List.mem_cons_self rfl

theorem Table.columnIndex?_eq_position : t.columnIndex? name = some position := by
  obtain ⟨later, own⟩ := columns_split found
  have apart : ∀ column ∈ t.columns.take position, decide (column = name) = false := by
    intro column earlier
    have absent := not_mem_take_columns found distinct
    simpa using fun same : column = name => absent (same ▸ earlier)
  have here : (t.columns.take position ++ name :: later).findIdx? (· = name) =
      some (t.columns.take position).length := findIdx?_length_iff.2 ⟨by simp, apart⟩
  rw [columnIndex?, own, here, length_take_columns found]

theorem ne_of_mem_columnsBefore (first : ∀ u ∈ before, name ∉ u.columns) :
    ∀ x ∈ columnsBefore before t position, x.2 ≠ name := by
  rintro ⟨u, column⟩ member rfl
  rcases mem_columnsBefore.1 member with ⟨left, inside⟩ | ⟨-, earlier⟩
  · exact first u left inside
  · exact not_mem_take_columns found distinct earlier

end Distinct

end Position

namespace RowType

/-- Whether a type joins tables of a catalog, in any shape. The tables are given from left to right, so each is
the parent of the next where the joins follow parent links. -/
inductive Spans (c : Catalog) : RowType → List Table → Prop
  | table {id : TableId} {t : Table} {type : RowType} (found : c.table? id = some t)
      (typed : c.tableType? id = some type) : Spans c type [t]
  | flattened {parent child : RowType} {ts us : List Table} (left : Spans c parent ts)
      (right : Spans c child us) : Spans c (.flattened parent child) (ts ++ us)

variable {c : Catalog} {type : RowType}

theorem Spans.known {tables : List Table} (spans : Spans c type tables) : ∀ t ∈ tables, t ∈ c.tables := by
  induction spans with
  | table found typed => exact fun t member => List.mem_singleton.1 member ▸ Catalog.numbered?_mem found
  | flattened left right ihl ihr =>
    intro t member
    rcases List.mem_append.1 member with member | member
    · exact ihl t member
    · exact ihr t member

/-- A joined type has the full names of all columns of its tables, from left to right. -/
theorem Spans.columns_eq {tables : List Table} (spans : Spans c type tables) :
    type.columns = (columnsOf tables).map fun x => x.1.qualified x.2 := by
  induction spans with
  | @table id t type found typed =>
    rw [Catalog.tableType?, found] at typed
    obtain rfl := Option.some.inj typed
    simp [Table.rowType, columns, columnsOf]
  | flattened left right ihl ihr =>
    rw [columns, ihl, ihr]
    simp [columnsOf]

theorem columnIndex?_eq_some_iff {name : String} {i : Nat} : type.columnIndex? name = some i ↔
    type.columns.findIdx? (· = name) = some i ∨
      (name ∉ type.columns ∧ type.columns.findIdx? (endsWith · ("." ++ name)) = some i) := by
  rw [columnIndex?]
  cases full : type.columns.findIdx? (· = name) with
  | none =>
    have absent : name ∉ type.columns := fun member => by
      simpa using List.findIdx?_eq_none_iff.1 full name member
    simp [absent]
  | some j =>
    have present : name ∈ type.columns := by
      obtain ⟨inside, same, -⟩ := List.findIdx?_eq_some_iff_getElem.1 full
      exact of_decide_eq_true same ▸ List.getElem_mem inside
    simp [present]

/-- A full name leads to the first column called so. -/
theorem columnIndex?_of_full {full : String} {i : Nat} (column : type.columns[i]? = some full)
    (earlier : ∀ j < i, type.columns[j]? ≠ some full) : type.columnIndex? full = some i := by
  obtain ⟨inside, here⟩ := List.getElem?_eq_some_iff.1 column
  refine columnIndex?_eq_some_iff.2 (.inl (List.findIdx?_eq_some_iff_getElem.2 ⟨inside, ?_, ?_⟩))
  · simpa using here
  · intro j less same
    have column' : type.columns[j]? = some full := by
      rw [List.getElem?_eq_getElem (Nat.lt_trans less inside), of_decide_eq_true same]
    exact earlier j less column'

section Leftmost

variable {before after : List Table} {t : Table} {name : String} {position : Nat}
  (spans : type.Spans c (before ++ t :: after)) (found : t.columns[position]? = some name)
include spans found

/-- A name leads to a given column that has it just if it is no full name and no column before has it or is
heard for it. -/
theorem Spans.columnIndex?_eq_offset_iff :
    type.columnIndex? name = some ((before.flatMap Table.columns).length + position) ↔
      name ∉ type.columns ∧ ∀ x ∈ columnsBefore before t position, x.2 ≠ name ∧ ¬ x.1.Echoes x.2 name := by
  obtain ⟨rest, split⟩ := @columnsOf_split before after _ _ _ found
  have columns := spans.columns_eq
  rw [split] at columns
  -- The column itself is never found by its full name, which is not its name.
  have full : ¬ type.columns.findIdx? (· = name) = some (columnsBefore before t position).length := by
    rw [columns, List.findIdx?_map, findIdx?_length_iff]
    simp [t.qualified_ne name]
  have bare : type.columns.findIdx? (endsWith · ("." ++ name)) = some (columnsBefore before t position).length ↔
      ∀ x ∈ columnsBefore before t position, x.2 ≠ name ∧ ¬ x.1.Echoes x.2 name := by
    rw [columns, List.findIdx?_map, findIdx?_length_iff]
    simp only [Function.comp_apply, Table.endsWith_qualified_iff, true_or, true_and, Bool.eq_false_iff, ne_eq,
      not_or]
  rw [columnIndex?_eq_some_iff, ← length_columnsBefore found, or_iff_right full, bare]

/-- Where no column's name has a dot, a column's name leads to the leftmost table with such a column, whatever
the tables are called. -/
theorem Spans.columnIndex?_of_undotted (first : ∀ u ∈ before, name ∉ u.columns) (distinct : t.columns.Nodup)
    (undotted : ∀ u ∈ before ++ t :: after, ∀ column ∈ u.columns, '.' ∉ column.toList) :
    type.columnIndex? name = some ((before.flatMap Table.columns).length + position) := by
  have known : t ∈ before ++ t :: after := by simp
  have plain : '.' ∉ name.toList := undotted t known name (List.mem_of_getElem? found)
  refine (spans.columnIndex?_eq_offset_iff found).2 ⟨fun full => ?_, fun x earlier => ?_⟩
  · rw [spans.columns_eq] at full
    obtain ⟨x, -, rfl⟩ := List.mem_map.1 full
    exact plain (by simp [Table.toList_qualified])
  · refine ⟨ne_of_mem_columnsBefore found distinct first x earlier, Table.not_echoes ?_ plain⟩
    rcases mem_columnsBefore.1 earlier with ⟨left, inside⟩ | ⟨own, inside⟩
    · exact undotted x.1 (List.mem_append_left _ left) x.2 inside
    · exact undotted t known x.2 (List.mem_of_mem_take inside)

end Leftmost

end RowType

/-- The columns of one table differ. -/
theorem Catalog.columns_nodup {declarations : List Declaration} {c : Catalog}
    (accepted : ofDeclarations declarations = .ok c) : ∀ t ∈ c.tables, t.columns.Nodup := by
  have judges := judges_ofDeclarations declarations
  have admissible := judges.ok_iff.1 ⟨c, accepted⟩
  have tables := (judges.of_ok accepted).tables
  intro t member
  obtain ⟨i, inside, rfl⟩ := List.getElem_of_mem (Array.mem_toList_iff.2 member)
  have inside' : i < (declaredTables declarations).length := tables.length_eq ▸ inside
  obtain ⟨earlier, later, split⟩ := List.append_of_mem (List.getElem_mem inside')
  have same := (tables.get inside' inside).columns
  rw [List.get_eq_getElem, List.get_eq_getElem] at same
  exact same ▸ (admissible.tables earlier _ later split).columns

namespace RowType

/-- A join of tables has the full names of their columns from left to right, and a full name leads to the first
column called so. Any other name of a column leads to the leftmost table with such a column, at that table's
offset and the column's position in the catalog, unless a column before it is heard for it. -/
theorem columnIndex?_leftmost {declarations : List Declaration} {c : Catalog}
    (accepted : Catalog.ofDeclarations declarations = .ok c) {type : RowType} {before after : List Table}
    {t : Table} (spans : type.Spans c (before ++ t :: after)) {name : String} {position : Nat}
    (found : t.columns[position]? = some name) (first : ∀ u ∈ before, name ∉ u.columns) :
    t.columnIndex? name = some position ∧
    type.columns = (before ++ t :: after).flatMap (fun u => u.columns.map u.qualified) ∧
    (∀ full i, type.columns[i]? = some full → (∀ j < i, type.columns[j]? ≠ some full) →
      type.columnIndex? full = some i) ∧
    (name ∉ type.columns → (∀ x ∈ columnsBefore before t position, ¬ x.1.Echoes x.2 name) →
      type.columnIndex? name = some ((before.flatMap Table.columns).length + position)) := by
  have distinct := Catalog.columns_nodup accepted t (spans.known t (by simp))
  have names : type.columns = (before ++ t :: after).flatMap (fun u => u.columns.map u.qualified) := by
    rw [spans.columns_eq, columnsOf, List.map_flatMap]
    simp [Function.comp_def]
  refine ⟨Table.columnIndex?_eq_position found distinct, names, fun full i => columnIndex?_of_full,
    fun bare apart => ?_⟩
  have apart' := ne_of_mem_columnsBefore found distinct first
  exact (spans.columnIndex?_eq_offset_iff found).2 ⟨bare, fun x member => ⟨apart' x member, apart x member⟩⟩

/-- Orders with a column that is called like the full name of another. -/
def dottedOrder : Table := ⟨⟨1⟩, "order", ["id", "order.id"], 0, none, ⟨1⟩⟩

def dottedDeclarations : List Declaration :=
  [.group "shop", .root "shop" "order" ["id", "order.id"] "id"]

def dotted : Catalog where
  groups := #[⟨⟨1⟩, "shop", ⟨1⟩⟩]
  tables := #[dottedOrder]
  indexes := #[]
  groupNames := .ofList [("shop", ⟨1⟩)]
  tableNames := .ofList [("order", ⟨1⟩)]
  indexNames := ∅

theorem dotted_accepted : Catalog.ofDeclarations dottedDeclarations = .ok dotted := by
  have groups : dottedDeclarations.filterMap Declaration.group? = ["shop"] := rfl
  have tables : dottedDeclarations.filterMap Declaration.table? =
      [⟨"order", ["id", "order.id"], "id", .root "shop"⟩] := rfl
  have indexes : dottedDeclarations.filterMap Declaration.index? = [] := rfl
  rw [Catalog.ofDeclarations, groups, tables, indexes]
  simp [Draft.addGroup, Draft.empty, Draft.addTable, Draft.addRoot, Draft.push, Draft.column, Draft.repeated?,
    Draft.rooted, bind, Except.bind, pure, Except.pure, dotted, dottedOrder, Catalog.numbered?, List.findIdx?,
    List.findIdx?.go, UInt16.size, UInt32.size, List.foldlM, TableId.ofNat]

/-- A column called like the full name of another is not found by its own name. -/
theorem fullName_first_dotted : Catalog.ofDeclarations dottedDeclarations = .ok dotted ∧
    dotted.table? ⟨1⟩ = some dottedOrder ∧ dotted.tableType? ⟨1⟩ = some dottedOrder.rowType ∧
    "order.id" ∈ dottedOrder.columns ∧ dottedOrder.columnIndex? "order.id" = some 1 ∧
    dottedOrder.rowType.columnIndex? "order.id" = some 0 :=
  ⟨dotted_accepted, rfl, rfl, by decide, by decide, by decide⟩

/-- An item's order stands behind the columns of the customer and the order, and an order's customer is found by
the full name. -/
theorem columnIndex?_leftmost_shop :
    Catalog.ofDeclarations shopDeclarations = .ok shop ∧
    (flattened shopCustomer.rowType (.flattened shopOrder.rowType shopItem.rowType)).Spans shop
      [shopCustomer, shopOrder, shopItem] ∧
    shopItem.columns[1]? = some "order" ∧ (∀ u ∈ [shopCustomer, shopOrder], "order" ∉ u.columns) ∧
    (flattened shopCustomer.rowType (.flattened shopOrder.rowType shopItem.rowType)).columnIndex? "order" =
      some 5 ∧
    (flattened shopCustomer.rowType (.flattened shopOrder.rowType shopItem.rowType)).columnIndex?
      "order.customer" = some 3 := by
  have customer : shopCustomer.rowType.Spans shop [shopCustomer] := @Spans.table shop ⟨1⟩ _ _ rfl rfl
  have order : shopOrder.rowType.Spans shop [shopOrder] := @Spans.table shop ⟨2⟩ _ _ rfl rfl
  have item : shopItem.rowType.Spans shop [shopItem] := @Spans.table shop ⟨3⟩ _ _ rfl rfl
  have spans := customer.flattened (order.flattened item)
  have found : shopItem.columns[1]? = some "order" := rfl
  have first : ∀ u ∈ [shopCustomer, shopOrder], "order" ∉ u.columns := by decide
  have plain : ∀ x ∈ columnsBefore [shopCustomer, shopOrder] shopItem 1, '.' ∉ x.2.toList := by decide
  have apart : ∀ x ∈ columnsBefore [shopCustomer, shopOrder] shopItem 1, ¬ x.1.Echoes x.2 "order" :=
    fun x earlier => Table.not_echoes (plain x earlier) (by decide)
  obtain ⟨-, -, full, bare⟩ :=
    @columnIndex?_leftmost _ _ shop_accepted _ [shopCustomer, shopOrder] [] _ spans _ _ found first
  exact ⟨shop_accepted, spans, found, first, bare (by decide) apart,
    full "order.customer" 3 (by decide) (by decide)⟩

end RowType

end Interleave
