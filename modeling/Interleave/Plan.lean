import Interleave.Pipeline

/-!
Query plans and their text. A plan names row types freely; whether it fits a catalog is found out
when it is built.
-/

namespace Interleave

open Pipeline (IndexScan LookupScope)

inductive Plan where
  | groupScan (group : GroupId)
  | indexScan (scan : IndexScan)
  | select (target : RowType) (predicate : Predicate) (input : Plan)
  | flatten (parent child : RowType) (input : Plan)
  | indexLookup (group : GroupId) (ancestors : List RowType) (scope : LookupScope) (input : Plan)

namespace Plan

def name : Plan → String
  | groupScan _ => Pipeline.GroupScan.name
  | indexScan _ => Pipeline.IndexScan.name
  | select .. => Pipeline.Select.name
  | flatten .. => Pipeline.Flatten.name
  | indexLookup .. => Pipeline.IndexLookup.name

def inputs : Plan → List Plan
  | groupScan _ => []
  | indexScan _ => []
  | select _ _ input => [input]
  | flatten _ _ input => [input]
  | indexLookup _ _ _ input => [input]

/-- The index scans of a plan, for binding their ranges. -/
def indexScans : Plan → List IndexScan
  | groupScan _ => []
  | indexScan scan => [scan]
  | select _ _ input => input.indexScans
  | flatten _ _ input => input.indexScans
  | indexLookup _ _ _ input => input.indexScans

def describeAncestors (ancestors : List RowType) : String :=
  if ancestors.isEmpty then ""
  else " ancestors [" ++ String.intercalate ", " (ancestors.map RowType.name) ++ "]"

def describe : Plan → String
  | groupScan group => "GroupScan: group " ++ toString group.num
  | indexScan scan =>
    "IndexScan: " ++ scan.rowType.name ++ " (range: " ++ scan.bindingKey.display ++
      (if scan.required then ", required" else "") ++ ")"
  | select target predicate _ => "Select: " ++ target.name ++ " [" ++ predicate.describe ++ "]"
  | flatten parent child _ => "Flatten: " ++ parent.name ++ " with " ++ child.name
  | indexLookup group ancestors scope _ =>
    "IndexLookup: group " ++ toString group.num ++ describeAncestors ancestors ++
      (match scope with
        | .branch => " (branch)"
        | .row => " (row)")

/-- One line an operator, each input below its reader and further to the right. -/
def treeFrom (indent : String) (p : Plan) : String :=
  let line := indent ++ "└── " ++ p.describe ++ "\n"
  let deeper := indent ++ "    "
  match p with
  | groupScan _ => line
  | indexScan _ => line
  | select _ _ input => line ++ input.treeFrom deeper
  | flatten _ _ input => line ++ input.treeFrom deeper
  | indexLookup _ _ _ input => line ++ input.treeFrom deeper

def tree (p : Plan) : String := p.treeFrom ""

end Plan

end Interleave
