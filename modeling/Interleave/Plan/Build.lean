import Interleave.Plan

/-!
From plans to pipelines. A plan is checked against the catalog from the top down: groups and
indexes must be known, a flatten must join a parent table with a child table, and a lookup must
read index rows of its own group and ask for true ancestors only.
-/

namespace Interleave.Plan

open Pipeline (IndexScan LookupScope IndexLookup)

/-- The table whose index entries a plan yields, if it yields index entries. -/
def indexedTable? : Plan → Option TableId
  | indexScan scan => some scan.rowType.tableId
  | select _ _ input => input.indexedTable?
  | _ => none

def checkGroup (c : Catalog) (group : GroupId) : Except QueryError Unit :=
  if (c.group? group).isSome then .ok () else .error (.usage (.unknownGroup group))

def joinsParentAndChild (c : Catalog) (parent child : RowType) : Bool :=
  !parent.isIndex && !child.isIndex &&
    ((c.table? child.tableId).bind (·.parent)).map (·.table) == some parent.tableId

def isKnownIndex (c : Catalog) (rowType : RowType) : Bool :=
  (rowType.indexId?.bind c.index?).isSome

/-- The tables of the wanted ancestors, each once. -/
def ancestorTables (c : Catalog) (table : TableId) : List TableId → List RowType →
    Except QueryError (List TableId)
  | done, [] => .ok done
  | done, wanted :: rest =>
    let id := wanted.tableId
    if wanted.isIndex || !c.isAncestor id table then .error (.usage (.notAncestor wanted.name))
    else ancestorTables c table (if done.contains id then done else done ++ [id]) rest

/-- The tables of a set in the order of a path, root first. -/
def rootFirst (path : List Table) (tables : List TableId) : List TableId :=
  (path.map (·.id)).filter (tables.contains ·)

def checkLookup (c : Catalog) (group : GroupId) (ancestors : List RowType) (input : Plan) :
    Except QueryError (List TableId) := do
  checkGroup c group
  match input.indexedTable? with
  | none => throw (.usage (.noIndexRows input.name))
  | some table =>
    if (c.table? table).map (·.group) ≠ some group then
      throw (.usage (.outsideGroup group))
    return rootFirst (c.path table) (← ancestorTables c table [] ancestors)

/-- The operators of a plan as they stand, without a look at a catalog. -/
def unchecked : Plan → Pipeline
  | groupScan group => .groupScan group
  | indexScan scan => .indexScan scan
  | select target predicate input => .select target predicate input.unchecked
  | flatten parent child input => .flatten parent child input.unchecked
  | indexLookup group ancestors scope input =>
    .indexLookup ⟨group, ancestors.map RowType.tableId, scope⟩ input.unchecked

def build (c : Catalog) : Plan → Except QueryError Pipeline
  | groupScan group => do
    checkGroup c group
    return .groupScan group
  | indexScan scan =>
    if isKnownIndex c scan.rowType then .ok (.indexScan scan)
    else .error (.usage (.notKnownIndex scan.rowType.name))
  | select target predicate input => do
    return .select target predicate (← build c input)
  | flatten parent child input => do
    if !joinsParentAndChild c parent child then
      throw (.usage (.notParentAndChild child.name parent.name))
    return .flatten parent child (← build c input)
  | indexLookup group ancestors scope input => do
    let tables ← checkLookup c group ancestors input
    return .indexLookup ⟨group, tables, scope⟩ (← build c input)

end Interleave.Plan
