import Interleave.Row
import Interleave.Query.Error

/-!
Tests on rows. A comparison sets a field against a literal; any other test is a function.
-/

namespace Interleave

inductive Comparator where
  | eq
  | ne
  | lt
  | le
  | gt
  | ge
deriving DecidableEq

namespace Comparator

def holds : Comparator → Ordering → Bool
  | eq, o => o == .eq
  | ne, o => o != .eq
  | lt, o => o == .lt
  | le, o => o != .gt
  | gt, o => o == .gt
  | ge, o => o != .lt

def display : Comparator → String
  | eq => "="
  | ne => "<>"
  | lt => "<"
  | le => "<="
  | gt => ">"
  | ge => ">="

def ofText? (s : String) : Option Comparator := [eq, ne, lt, le, gt, ge].find? (·.display = s)

end Comparator

/-- `field` is a position in the row. -/
structure Comparison where
  field : Nat
  comparator : Comparator
  literal : Value

inductive Predicate where
  | comparison (c : Comparison)
  | test (f : Row → Except QueryError Bool)

namespace Comparison

/-- Values that do not compare, and nulls, fail the comparison. -/
def evaluate (c : Comparison) (row : Row) : Except QueryError Bool :=
  match row.values[c.field]? with
  | none => .error (.usage (.fieldRange c.field row.rowType.name row.values.length))
  | some v =>
    if v.isNull || c.literal.isNull then .ok false
    else .ok ((v.compare? c.literal).any c.comparator.holds)

def describe (c : Comparison) : String :=
  "$" ++ toString c.field ++ " " ++ c.comparator.display ++ " " ++ c.literal.display

end Comparison

namespace Predicate

def evaluate : Predicate → Row → Except QueryError Bool
  | comparison c => c.evaluate
  | test f => f

def describe : Predicate → String
  | comparison c => c.describe
  | test _ => "<predicate>"

end Predicate

end Interleave
