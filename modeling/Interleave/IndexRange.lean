import Interleave.Codec.Sortable
import Interleave.Storage.Bound

/-!
Ranges over index keys. An end may name fewer values than the index has columns; it then speaks of
every key that begins with those values. An index key is its columns' values and then a row key,
so an end on values is widened to all byte strings that go on from them.
-/

namespace Interleave

structure RangeEnd where
  values : List Value
  inclusive : Bool
deriving DecidableEq

/-- A missing end bounds nothing. -/
structure IndexRange where
  low : Option RangeEnd
  high : Option RangeEnd
deriving DecidableEq

namespace IndexRange

open Storage (Bound)

def unbounded : IndexRange := ⟨none, none⟩

/-- The keys that begin with the given values. -/
def point (values : List Value) : IndexRange := ⟨some ⟨values, true⟩, some ⟨values, true⟩⟩

def atLeast (low : RangeEnd) : IndexRange := ⟨some low, none⟩

def atMost (high : RangeEnd) : IndexRange := ⟨none, some high⟩

/-- The number of key columns that the wider end speaks of. -/
def width (r : IndexRange) : Nat :=
  max ((r.low.map (·.values.length)).getD 0) ((r.high.map (·.values.length)).getD 0)

/-- An exclusive low end starts past everything that goes on from it, and there may be nothing
past it. -/
def lowBound? : Option RangeEnd → Option Bound
  | none => some .unbounded
  | some ⟨values, true⟩ => some (.included (Codec.Sortable.encodeAll values))
  | some ⟨values, false⟩ => (Codec.Sortable.encodeAll values).successor?.map .included

def highBound : Option RangeEnd → Bound
  | none => .unbounded
  | some ⟨values, true⟩ => .pastExtensions (Codec.Sortable.encodeAll values)
  | some ⟨values, false⟩ => .excluded (Codec.Sortable.encodeAll values)

/-- The range over stored index keys. It is absent when no key can lie in it. -/
def keyBounds? (r : IndexRange) : Option (Bound × Bound) :=
  (lowBound? r.low).map fun low => (low, highBound r.high)

end IndexRange

end Interleave
