import Interleave.Catalog
import Interleave.Fault

/-!
Catalogs from declarations. Groups are read first, then tables, then indexes, each kind in its own
order; the first fault found ends the reading. A child names a parent declared before it, so
following parents always ends.
-/

namespace Interleave

inductive Declaration where
  | group (name : String)
  | root (group name : String) (columns : List String) (primaryKey : String)
  | child (name parent : String) (columns : List String) (primaryKey foreignKey : String)
  | index (name table : String) (columns : List String)

/-- Where a declared table stands: on top of a group, or below a table through a column. -/
inductive Placement where
  | root (group : String)
  | child (parent foreignKey : String)

structure TableDeclaration where
  name : String
  columns : List String
  primaryKey : String
  placement : Placement

namespace Declaration

def group? : Declaration → Option String
  | group name => some name
  | _ => none

def table? : Declaration → Option TableDeclaration
  | root top name columns primaryKey => some ⟨name, columns, primaryKey, .root top⟩
  | child name parent columns primaryKey foreignKey =>
    some ⟨name, columns, primaryKey, .child parent foreignKey⟩
  | _ => none

def index? : Declaration → Option (String × String × List String)
  | index name table columns => some (name, table, columns)
  | _ => none

end Declaration

/-- The groups and tables declared so far, with their numbers by name. `roots` stands beside
`groups`. -/
structure Draft where
  groups : Array String
  groupNames : Std.HashMap String GroupId
  roots : Array (Option TableId)
  tables : Array Table
  tableNames : Std.HashMap String TableId

/-- The indexes declared so far, with their numbers by name. -/
structure IndexDraft where
  indexes : Array Index
  names : Std.HashMap String IndexId

namespace Draft

def empty : Draft := ⟨#[], ∅, #[], #[], ∅⟩

def addGroup (d : Draft) (name : String) : Except CatalogFault Draft :=
  let num := d.groups.size + 1
  if UInt32.size ≤ num then .error .tooManyGroups
  else if d.groupNames.contains name then .error (.duplicateGroup name)
  else .ok { d with
    groups := d.groups.push name
    groupNames := d.groupNames.insert name ⟨num⟩
    roots := d.roots.push none }

/-- The first column that stands among those before it. -/
def repeated? : List String → List String → Option String
  | _, [] => none
  | seen, c :: rest => if seen.contains c then some c else repeated? (c :: seen) rest

def column (table : String) (columns : List String) (name : String) : Except CatalogFault Nat :=
  match columns.findIdx? (· = name) with
  | some position => .ok position
  | none => .error (.unknownColumn table name)

def tableNamed? (d : Draft) (name : String) : Option Table :=
  d.tableNames[name]?.bind fun id => Catalog.numbered? d.tables id.toNat

def push (d : Draft) (t : Table) : Draft :=
  { d with tables := d.tables.push t, tableNames := d.tableNames.insert t.name t.id }

def addRoot (d : Draft) (t : Table) (group : String) : Except CatalogFault Draft :=
  match d.groupNames[group]? with
  | none => .error (.unknownGroup t.name group)
  | some id =>
    match Catalog.numbered? d.roots id.num with
    | none => .error (.missingGroup group)
    | some (some _) => .error (.secondRoot group)
    | some none => .ok ({ d with roots := d.roots.setIfInBounds (id.num - 1) (some t.id) }.push
      { t with group := id })

def addChild (d : Draft) (t : Table) (parent foreignKey : String) : Except CatalogFault Draft :=
  match d.tableNamed? parent with
  | none => .error (.unknownParent t.name parent)
  | some above =>
    (column t.name t.columns foreignKey).map fun position =>
      d.push { t with group := above.group, parent := some ⟨above.id, position⟩ }

def addTable (d : Draft) (t : TableDeclaration) : Except CatalogFault Draft :=
  let num := d.tables.size + 1
  if UInt16.size ≤ num then .error .tooManyTables
  else if d.tableNames.contains t.name then .error (.duplicateTable t.name)
  else match repeated? [] t.columns with
    | some c => .error (.duplicateColumn t.name c)
    | none =>
      match column t.name t.columns t.primaryKey with
      | .error fault => .error fault
      | .ok primaryKey =>
        let table := ⟨TableId.ofNat num, t.name, t.columns, primaryKey, none, ⟨0⟩⟩
        match t.placement with
        | .root group => d.addRoot table group
        | .child parent foreignKey => d.addChild table parent foreignKey

/-- The groups with their roots, if every group has one. -/
def rooted (d : Draft) : Except CatalogFault (Array Group) :=
  (d.groups.toList.zip d.roots.toList).foldlM (fun done (name, root) =>
    match root with
    | some root => .ok (done.push ⟨⟨done.size + 1⟩, name, root⟩)
    | none => .error (.noRoot name)) #[]

def columnPositions (t : Table) : List String → Except CatalogFault (List Nat)
  | [] => .ok []
  | c :: rest =>
    match column t.name t.columns c with
    | .error fault => .error fault
    | .ok position => (columnPositions t rest).map (position :: ·)

def addIndex (d : Draft) (done : IndexDraft) :
    String × String × List String → Except CatalogFault IndexDraft
  | (name, table, columns) =>
    let num := done.indexes.size + 1
    if UInt32.size ≤ num then .error .tooManyIndexes
    else if done.names.contains name then .error (.duplicateIndex name)
    else match d.tableNamed? table with
      | none => .error (.unknownIndexedTable name table)
      | some t =>
        if columns.isEmpty then .error (.noIndexColumns name)
        else (columnPositions t columns).map fun positions =>
          ⟨done.indexes.push ⟨⟨num⟩, name, t.id, positions⟩, done.names.insert name ⟨num⟩⟩

end Draft

namespace Catalog

def ofDeclarations (declarations : List Declaration) : Except CatalogFault Catalog := do
  let named ← (declarations.filterMap Declaration.group?).foldlM Draft.addGroup Draft.empty
  let draft ← (declarations.filterMap Declaration.table?).foldlM Draft.addTable named
  let groups ← draft.rooted
  let done ← (declarations.filterMap Declaration.index?).foldlM draft.addIndex ⟨#[], ∅⟩
  return ⟨groups, draft.tables, done.indexes, draft.groupNames, draft.tableNames, done.names⟩

end Catalog

end Interleave
