import Interleave.Storage.ByteMap
import Interleave.Text.Utf8

/-!
How logical tables share one ordered key space. A physical key is the table's name, a zero byte
and the logical key. A name without a zero byte comes back whole, and the keys of its table lie
side by side between the name's first key and the name followed by a one.
-/

namespace Interleave.Storage.Layout

def encodeKey (table : String) (key : Bytes) : Bytes := Text.utf8 table ++ 0 :: key

/-- Splits at the first zero byte. The name must be text. -/
def decodeKey? (physical : Bytes) : Option (String × Bytes) :=
  match physical.dropWhile (· != 0) with
  | [] => none
  | _ :: key =>
    match Text.ofUtf8 (physical.takeWhile (· != 0)) with
    | .ok table => some (table, key)
    | .error _ => none

def firstKey (table : String) : Bytes := encodeKey table []

/-- The first key past the table. -/
def endKey (table : String) : Bytes := Text.utf8 table ++ [1]

def lowBound (table : String) : Bound → Bound
  | .included key => .included (encodeKey table key)
  | .excluded key => .excluded (encodeKey table key)
  | .unbounded => .included (firstKey table)

def highBound (table : String) : Bound → Bound
  | .included key => .included (encodeKey table key)
  | .excluded key => .excluded (encodeKey table key)
  | .unbounded => .excluded (endKey table)

end Interleave.Storage.Layout

namespace Interleave.Storage.ByteMap

/-! Reading and writing the logical tables of a shared key space. -/

def getIn? (m : ByteMap) (table : String) (key : Bytes) : Option Bytes :=
  m.get? (Layout.encodeKey table key)

def containsIn (m : ByteMap) (table : String) (key : Bytes) : Bool :=
  m.contains (Layout.encodeKey table key)

def putIn (m : ByteMap) (table : String) (key value : Bytes) : ByteMap :=
  m.insert (Layout.encodeKey table key) value

def eraseIn (m : ByteMap) (table : String) (key : Bytes) : ByteMap :=
  m.erase (Layout.encodeKey table key)

/-- The first `limit` entries of a table below a physical end, under their logical keys. -/
def readBelow (high : Bound) : Nat → List Entry → List Entry
  | 0, _ => []
  | _ + 1, [] => []
  | limit + 1, e :: rest =>
    if high.above e.1 then
      match Layout.decodeKey? e.1 with
      | some (_, key) => (key, e.2) :: readBelow high limit rest
      | none => readBelow high (limit + 1) rest
    else []

/-- The first `limit` entries of a table between two logical ends. -/
def rangeIn (m : ByteMap) (table : String) (low high : Bound) (limit : Nat) : List Entry :=
  let low := Layout.lowBound table low
  let high := Layout.highBound table high
  if low.disjoint high then [] else readBelow high limit (m.startingAt low)

theorem readBelow_eq_take (high : Bound) (limit : Nat) (entries : List Entry) :
    readBelow high limit entries =
      ((entries.takeWhile fun e => high.above e.1).filterMap fun e =>
        (Layout.decodeKey? e.1).map fun (_, key) => (key, e.2)).take limit := by
  fun_induction readBelow high limit entries <;> simp_all

end Interleave.Storage.ByteMap
