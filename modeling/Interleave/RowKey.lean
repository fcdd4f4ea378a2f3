import Interleave.Bytes.Word
import Interleave.Ident

/-!
Keys of rows. A key is the path from the root of a table hierarchy down to a row, one segment a
row: the table's number, then the row's key value in order-keeping form. Written one after another
the segments give the stored bytes, so the rows below a row are those whose bytes extend its own.
-/

namespace Interleave

/-- `value` holds the encoded key value. -/
structure Segment where
  table : TableId
  value : Bytes
deriving DecidableEq

structure RowKey where
  segments : List Segment
deriving DecidableEq

namespace Segment

def bytes (s : Segment) : Bytes := Bytes.bigEndian 2 s.table.toNat ++ s.value

end Segment

namespace RowKey

def empty : RowKey := ⟨[]⟩

def bytes (k : RowKey) : Bytes := k.segments.flatMap Segment.bytes

def depth (k : RowKey) : Nat := k.segments.length

def isEmpty (k : RowKey) : Bool := k.segments.isEmpty

/-- The table of a segment; the root is at depth 0. -/
def tableAt? (k : RowKey) (depth : Nat) : Option TableId := k.segments[depth]?.map (·.table)

/-- The table of the row that the key belongs to. -/
def lastTable? (k : RowKey) : Option TableId := k.segments.getLast?.map (·.table)

def truncate (k : RowKey) (depth : Nat) : RowKey := ⟨k.segments.take depth⟩

/-- The key of the first `depth` segments, if there are more than that. -/
def ancestor? (k : RowKey) (depth : Nat) : Option RowKey :=
  if depth < k.depth then some (k.truncate depth) else none

/-- Where a table stands on the path. -/
def position? (k : RowKey) (table : TableId) : Option Nat :=
  k.segments.findIdx? (·.table = table)

/-- Whether `other` belongs to a row below the row of this key: its bytes go on where these end. -/
def isAbove (k other : RowKey) : Bool :=
  k.bytes.length < other.bytes.length && k.bytes.isPrefixOf other.bytes

def order (a b : RowKey) : Ordering := Bytes.order a.bytes b.bytes

@[simp] theorem bytes_empty : empty.bytes = [] := rfl

theorem bytes_append (a b : List Segment) :
    (⟨a ++ b⟩ : RowKey).bytes = (⟨a⟩ : RowKey).bytes ++ (⟨b⟩ : RowKey).bytes := by
  simp [bytes]

theorem depth_truncate (k : RowKey) (d : Nat) : (k.truncate d).depth = min d k.depth := by
  simp [truncate, depth]

theorem truncate_of_depth_le {k : RowKey} {d : Nat} (h : k.depth ≤ d) : k.truncate d = k := by
  simp only [truncate]
  rw [List.take_of_length_le h]

theorem isAbove_irrefl (k : RowKey) : k.isAbove k = false := by
  simp [isAbove]

theorem isAbove_iff (k other : RowKey) :
    k.isAbove other = true ↔ ∃ below, below ≠ [] ∧ other.bytes = k.bytes ++ below := by
  simp only [isAbove, Bool.and_eq_true, decide_eq_true_eq, List.isPrefixOf_iff_prefix]
  constructor
  · rintro ⟨longer, below, same⟩
    refine ⟨below, ?_, same.symm⟩
    rintro rfl
    simp [← same] at longer
  · rintro ⟨below, nonempty, same⟩
    exact ⟨by simpa [same] using List.length_pos_iff.mpr nonempty, below, same.symm⟩

theorem isAbove_trans {a b c : RowKey} (ab : a.isAbove b = true) (bc : b.isAbove c = true) :
    a.isAbove c = true := by
  obtain ⟨s, _, hb⟩ := (isAbove_iff a b).mp ab
  obtain ⟨t, ht, hc⟩ := (isAbove_iff b c).mp bc
  exact (isAbove_iff a c).mpr ⟨s ++ t, by simp [ht], by simp [hc, hb]⟩

end RowKey

end Interleave
