import Interleave.Catalog

/-!
Row types: the rows of a table, the entries of an index, or a parent's rows joined with those of
a child. Types are the same when they are built alike from the same tables and indexes, whatever
their names say.
-/

namespace Interleave

/-- Columns are named with their table, as in `order.total`. -/
inductive RowType where
  | table (id : TableId) (name : String) (columns : List String)
  | index (id : IndexId) (owner : TableId) (name : String) (columns : List String)
  | flattened (parent child : RowType)
deriving DecidableEq

namespace RowType

def name : RowType → String
  | table _ name _ => name
  | index _ _ name _ => name
  | flattened parent child => parent.name ++ "_" ++ child.name

def columns : RowType → List String
  | table _ _ columns => columns
  | index _ _ _ columns => columns
  | flattened parent child => parent.columns ++ child.columns

def columnCount (t : RowType) : Nat := t.columns.length

/-- The table whose rows, or whose rows' index entries, have this type. A joined row counts to
the child's table. -/
def tableId : RowType → TableId
  | table id _ _ => id
  | index _ owner _ _ => owner
  | flattened _ child => child.tableId

def indexId? : RowType → Option IndexId
  | index id _ _ _ => some id
  | _ => none

def isIndex (t : RowType) : Bool := t.indexId?.isSome

/-- Names do not count. -/
def same : RowType → RowType → Bool
  | table a _ _, table b _ _ => a == b
  | index a _ _ _, index b _ _ _ => a == b
  | flattened a b, flattened c d => a.same c && b.same d
  | _, _ => false

def endsWith (column ending : String) : Bool := ending.toList.isSuffixOf column.toList

/-- A full name goes first. A bare name stands for the first column of that name, which in a
joined type is the copy nearest to the root. -/
def columnIndex? (t : RowType) (name : String) : Option Nat :=
  match t.columns.findIdx? (· = name) with
  | some position => some position
  | none => t.columns.findIdx? fun column => endsWith column ("." ++ name)

theorem same_refl (t : RowType) : t.same t = true := by
  induction t with
  | table => simp [same]
  | index => simp [same]
  | flattened a b iha ihb => simp [same, iha, ihb]

theorem same_comm (a b : RowType) : a.same b = b.same a := by
  induction a generalizing b with
  | table => cases b <;> simp [same, Bool.beq_comm]
  | index => cases b <;> simp [same, Bool.beq_comm]
  | flattened p c ihp ihc => cases b <;> simp [same, ihp, ihc]

theorem columnCount_flattened (p c : RowType) :
    (flattened p c).columnCount = p.columnCount + c.columnCount := by
  simp [columnCount, columns]

end RowType

def Table.qualified (t : Table) (column : String) : String := t.name ++ "." ++ column

def Table.rowType (t : Table) : RowType := .table t.id t.name (t.columns.map t.qualified)

def Index.rowType (i : Index) (t : Table) : RowType :=
  .index i.id i.table i.name ((i.columns.filterMap fun position => t.columns[position]?).map t.qualified)

namespace Catalog

def tableType? (c : Catalog) (id : TableId) : Option RowType := (c.table? id).map Table.rowType

def indexType? (c : Catalog) (id : IndexId) : Option RowType := do
  let index ← c.index? id
  let table ← c.table? index.table
  return index.rowType table

end Catalog

end Interleave
