import Interleave.Codec.Sortable
import Interleave.RowKey

/-!
Row keys from values and from stored bytes, and their text. Reading stored bytes finds again
where each segment ends, because no encoded value begins another.
-/

namespace Interleave.RowKey

/-- The key of a row one level below. -/
def push (k : RowKey) (table : TableId) (value : Value) : RowKey :=
  ⟨k.segments ++ [⟨table, Codec.Sortable.encode value⟩]⟩

def ofSegments (path : List (TableId × Value)) : RowKey :=
  path.foldl (fun k (table, value) => k.push table value) empty

/-- `offset` is where the input stands in the whole key, and `fuel` is at least its length. -/
def readSegments : Nat → Nat → Bytes → Except EncodingFault (List Segment)
  | _, _, [] => .ok []
  | 0, offset, _ => .error (.truncatedSegment offset)
  | _, offset, [_] => .error (.truncatedSegment offset)
  | fuel + 1, offset, high :: low :: input =>
    match Codec.Sortable.read input with
    | .error fault => .error fault
    | .ok (_, rest) =>
      let used := input.length - rest.length
      let table := TableId.ofNat (Bytes.ofBigEndian [high, low])
      (readSegments fuel (offset + 2 + used) rest).map (⟨table, input.take used⟩ :: ·)

def ofBytes (bytes : Bytes) : Except EncodingFault RowKey :=
  (readSegments bytes.length 0 bytes).map RowKey.mk

/-- Reads new bytes into a key. A key that fails to read is left empty. -/
def reset (bytes : Bytes) : RowKey × Option EncodingFault :=
  match ofBytes bytes with
  | .ok k => (k, none)
  | .error fault => (empty, some fault)

def valueAt? (k : RowKey) (depth : Nat) : Except EncodingFault (Option Value) :=
  match k.segments[depth]? with
  | none => .ok none
  | some s => (Codec.Sortable.read s.value).map fun (v, _) => some v

def decodeSegments : List Segment → Except EncodingFault (List (TableId × Value))
  | [] => .ok []
  | s :: rest =>
    match Codec.Sortable.read s.value with
    | .error fault => .error fault
    | .ok (v, _) => (decodeSegments rest).map ((s.table, v) :: ·)

/-- The path that the key was made from, root first. -/
def path (k : RowKey) : Except EncodingFault (List (TableId × Value)) := decodeSegments k.segments

def displaySegment (s : Segment) : String :=
  match Codec.Sortable.read s.value with
  | .ok (v, _) => s.table.display ++ "," ++ v.display
  | .error _ => "?"

def display (k : RowKey) : String :=
  "\x7b" ++ String.intercalate "," (k.segments.map displaySegment) ++ "\x7d"

theorem bytes_push (k : RowKey) (table : TableId) (value : Value) :
    (k.push table value).bytes =
      k.bytes ++ (Bytes.bigEndian 2 table.toNat ++ Codec.Sortable.encode value) := by
  simp [push, bytes, Segment.bytes]

theorem depth_push (k : RowKey) (table : TableId) (value : Value) :
    (k.push table value).depth = k.depth + 1 := by
  simp [push, depth]

theorem lastTable?_push (k : RowKey) (table : TableId) (value : Value) :
    (k.push table value).lastTable? = some table := by
  simp [push, lastTable?]

end Interleave.RowKey
