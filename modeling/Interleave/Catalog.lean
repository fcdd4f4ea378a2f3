import Std.Data.HashMap
import Interleave.Ident

/-!
The catalog: groups, their tables and the indexes on them. The tables of a group form one tree;
every table but the root names its parent and the column that holds the parent's key value. Entries
are found by number; a name leads to a number first.
-/

namespace Interleave

structure Group where
  id : GroupId
  name : String
  root : TableId
deriving DecidableEq

/-- A table's parent, and where the table keeps the parent's key value. -/
structure ParentLink where
  table : TableId
  column : Nat
deriving DecidableEq

structure Table where
  id : TableId
  name : String
  columns : List String
  primaryKey : Nat
  parent : Option ParentLink
  group : GroupId
deriving DecidableEq

/-- `columns` holds positions in the indexed table, in key order. -/
structure Index where
  id : IndexId
  name : String
  table : TableId
  columns : List Nat
deriving DecidableEq

structure Catalog where
  groups : Array Group
  tables : Array Table
  indexes : Array Index
  groupNames : Std.HashMap String GroupId
  tableNames : Std.HashMap String TableId
  indexNames : Std.HashMap String IndexId

namespace Table

def columnIndex? (t : Table) (name : String) : Option Nat := t.columns.findIdx? (· = name)

def columnCount (t : Table) : Nat := t.columns.length

def isRoot (t : Table) : Bool := t.parent.isNone

end Table

namespace Catalog

def empty : Catalog := ⟨#[], #[], #[], ∅, ∅, ∅⟩

/-- The entry that counts as number `n`, the first being 1. -/
def numbered? {α : Type} (entries : Array α) : Nat → Option α
  | 0 => none
  | n + 1 => entries[n]?

def group? (c : Catalog) (id : GroupId) : Option Group := numbered? c.groups id.num

def table? (c : Catalog) (id : TableId) : Option Table := numbered? c.tables id.toNat

def index? (c : Catalog) (id : IndexId) : Option Index := numbered? c.indexes id.num

def groupNamed? (c : Catalog) (name : String) : Option Group := c.groupNames[name]?.bind c.group?

def tableNamed? (c : Catalog) (name : String) : Option Table := c.tableNames[name]?.bind c.table?

def indexNamed? (c : Catalog) (name : String) : Option Index := c.indexNames[name]?.bind c.index?

def tablesIn (c : Catalog) (group : GroupId) : List Table :=
  c.tables.toList.filter (·.group = group)

def parentOf? (c : Catalog) (table : TableId) : Option Table := do
  let link ← (← c.table? table).parent
  c.table? link.table

def childrenOf (c : Catalog) (table : TableId) : List Table :=
  c.tables.toList.filter fun t => t.parent.any (·.table = table)

def indexesOn (c : Catalog) (table : TableId) : List Index :=
  c.indexes.toList.filter (·.table = table)

/-- A table and the tables above it, up to `fuel` of them. -/
def upward (c : Catalog) : Nat → TableId → List Table
  | 0, _ => []
  | fuel + 1, id =>
    match c.table? id with
    | none => []
    | some t =>
      match t.parent with
      | none => [t]
      | some link => t :: upward c fuel link.table

/-- The tables from the root down to a table. It is empty for an unknown table. A parent is
declared before its children, so no path is longer than the list of tables. -/
def path (c : Catalog) (table : TableId) : List Table := (c.upward c.tables.size table).reverse

/-- Whether one table lies strictly above another. -/
def isAncestor (c : Catalog) (above below : TableId) : Bool :=
  (c.path below).dropLast.any (·.id = above)

end Catalog

end Interleave
