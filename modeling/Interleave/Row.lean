import Interleave.RowType
import Interleave.RowKey.Segments

/-!
Rows on their way through a pipeline: values, their type, and the key of the stored row that they
came from. An index entry carries the key of the row that it points to and a joined row the key
of its child.
-/

namespace Interleave

structure Row where
  rowType : RowType
  values : List Value
  key : Option RowKey

namespace Row

def valueNamed? (r : Row) (column : String) : Option Value :=
  (r.rowType.columnIndex? column).bind fun position => r.values[position]?

/-- Whether `other` lies below this row in the hierarchy. -/
def isAbove (r other : Row) : Bool :=
  match r.key, other.key with
  | some a, some b => a.isAbove b
  | _, _ => false

/-- The parent's values and then the child's, under the child's key. -/
def join (parent child : Row) (rowType : RowType) : Row :=
  ⟨rowType, parent.values ++ child.values, child.key⟩

def same (r other : Row) : Bool :=
  r.rowType.same other.rowType && Value.sameAll r.values other.values && r.key == other.key

def display (r : Row) : String :=
  r.rowType.name ++ "(" ++ String.intercalate ", " (r.values.map Value.display) ++ ")"

end Row

end Interleave
