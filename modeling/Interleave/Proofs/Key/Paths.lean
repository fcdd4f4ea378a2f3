import Mathlib.Data.List.Basic
import Interleave.RowKey.Segments
import Interleave.Proofs.Codec.Sortable

/-!
Keys as paths. In a written key every segment holds the form of some value, so the bytes of one key
begin those of another exactly when its segments do, and stored bytes read back as the key.
-/

namespace Interleave

/-- The segment of a table and a key value. -/
def Segment.of (table : TableId) (value : Value) : Segment := ⟨table, Codec.Sortable.encode value⟩

/-- Whether a segment holds the form of a value. -/
def Segment.IsWritten (s : Segment) : Prop := ∃ v, s = .of s.table v

/-- Whether a key was made from values. -/
def RowKey.IsWritten (k : RowKey) : Prop := ∀ s ∈ k.segments, s.IsWritten

/-- Whether the bytes of a segment read as a value, whatever comes after them. -/
def Segment.IsLegible (s : Segment) : Prop :=
  ∃ v, ∀ tail, Codec.Sortable.read (s.value ++ tail) = .ok (v, tail)

def RowKey.IsLegible (k : RowKey) : Prop := ∀ s ∈ k.segments, s.IsLegible

theorem TableId.ofBigEndian_bigEndian (id : TableId) :
    Bytes.ofBigEndian (Bytes.bigEndian 2 id.toNat) = id.toNat := by
  rw [Bytes.ofBigEndian_bigEndian]
  exact Nat.mod_eq_of_lt (UInt16.toNat_lt_size id.num)

namespace Segment

theorem isWritten_of (table : TableId) (value : Value) : (of table value).IsWritten := ⟨value, rfl⟩

theorem IsWritten.legible {s : Segment} (written : s.IsWritten) : s.IsLegible := by
  obtain ⟨v, form⟩ := written
  rw [form]
  exact ⟨v.canonical, Codec.Sortable.read_encode v⟩

theorem bytes_ne_nil (s : Segment) : s.bytes ≠ [] := by
  simp [bytes, Bytes.bigEndian]

/-- No written segment begins another. -/
theorem bytes_append_inj {s t : Segment} {r r' : Bytes} (hs : s.IsWritten) (ht : t.IsWritten)
    (same : s.bytes ++ r = t.bytes ++ r') : s = t ∧ r = r' := by
  obtain ⟨v, hv⟩ := hs
  obtain ⟨w, hw⟩ := ht
  rw [hv, hw] at same ⊢
  simp only [bytes, of, List.append_assoc] at same ⊢
  have lengths : (Bytes.bigEndian 2 s.table.toNat).length =
    (Bytes.bigEndian 2 t.table.toNat).length := by simp
  obtain ⟨heads, tails⟩ := List.append_inj same lengths
  obtain ⟨forms, rests⟩ := Codec.Sortable.encode_append_inj tails
  have numbers := congrArg Bytes.ofBigEndian heads
  rw [TableId.ofBigEndian_bigEndian, TableId.ofBigEndian_bigEndian] at numbers
  rw [TableId.toNat_inj.1 numbers, forms]
  exact ⟨rfl, rests⟩

end Segment

namespace RowKey

@[simp] theorem segments_push (k : RowKey) (table : TableId) (value : Value) :
    (k.push table value).segments = k.segments ++ [.of table value] := rfl

theorem IsWritten.push {k : RowKey} (hk : k.IsWritten) (table : TableId) (value : Value) :
    (k.push table value).IsWritten := by
  intro s member
  rcases List.mem_append.1 member with member | member
  · exact hk s member
  · exact List.mem_singleton.1 member ▸ Segment.isWritten_of table value

theorem segments_foldl_push (path : List (TableId × Value)) (k : RowKey) :
    (path.foldl (fun k (table, value) => k.push table value) k).segments =
      k.segments ++ path.map fun p => Segment.of p.1 p.2 := by
  induction path generalizing k with
  | nil => simp
  | cons p rest ih =>
    rw [List.foldl_cons, ih]
    simp

theorem segments_ofSegments (path : List (TableId × Value)) :
    (ofSegments path).segments = path.map fun p => Segment.of p.1 p.2 :=
  segments_foldl_push path empty

theorem isWritten_ofSegments (path : List (TableId × Value)) : (ofSegments path).IsWritten := by
  intro s member
  rw [segments_ofSegments, List.mem_map] at member
  obtain ⟨p, _, rfl⟩ := member
  exact Segment.isWritten_of p.1 p.2

theorem isWritten_empty : empty.IsWritten := fun _ member => by cases member

theorem bytes_cons (s : Segment) (rest : List Segment) :
    (⟨s :: rest⟩ : RowKey).bytes = s.bytes ++ (⟨rest⟩ : RowKey).bytes := rfl

/-- Segments are found again one by one, since no segment begins another. -/
theorem segments_of_bytes_append {a b : List Segment} {rest : Bytes}
    (ha : (⟨a⟩ : RowKey).IsWritten) (hb : (⟨b⟩ : RowKey).IsWritten)
    (same : (⟨a⟩ : RowKey).bytes ++ rest = (⟨b⟩ : RowKey).bytes) :
    ∃ below, b = a ++ below ∧ rest = (⟨below⟩ : RowKey).bytes := by
  induction a generalizing b with
  | nil => exact ⟨b, rfl, same⟩
  | cons s a ih =>
    cases b with
    | nil =>
      rw [bytes_cons, List.append_assoc] at same
      exact absurd (List.append_eq_nil_iff.1 same).1 s.bytes_ne_nil
    | cons t b =>
      simp only [bytes_cons, List.append_assoc] at same
      obtain ⟨heads, tails⟩ := Segment.bytes_append_inj (ha s (by simp)) (hb t (by simp)) same
      obtain ⟨below, split, bytes⟩ := ih (fun x member => ha x (List.mem_cons_of_mem _ member))
        (fun x member => hb x (List.mem_cons_of_mem _ member)) tails
      exact ⟨below, by rw [heads, split, List.cons_append], bytes⟩

theorem bytes_prefix_iff {a b : RowKey} (ha : a.IsWritten) (hb : b.IsWritten) :
    a.bytes <+: b.bytes ↔ a.segments <+: b.segments := by
  constructor
  · rintro ⟨rest, same⟩
    obtain ⟨below, split, _⟩ := segments_of_bytes_append ha hb same
    exact ⟨below, split.symm⟩
  · rintro ⟨below, split⟩
    refine ⟨(⟨below⟩ : RowKey).bytes, ?_⟩
    rw [← bytes_append, split]

theorem bytes_inj {a b : RowKey} (ha : a.IsWritten) (hb : b.IsWritten) :
    a.bytes = b.bytes ↔ a = b := by
  constructor
  · intro same
    have forth := (bytes_prefix_iff ha hb).1 (same ▸ List.prefix_rfl)
    have back := (bytes_prefix_iff hb ha).1 (same ▸ List.prefix_rfl)
    have segments := forth.eq_of_length (Nat.le_antisymm forth.length_le back.length_le)
    cases a
    cases b
    exact congrArg RowKey.mk segments
  · rintro rfl
    rfl

theorem isAbove_iff_segments {a b : RowKey} (ha : a.IsWritten) (hb : b.IsWritten) :
    a.isAbove b = true ↔ ∃ below, below ≠ [] ∧ b.segments = a.segments ++ below := by
  rw [isAbove_iff]
  constructor
  · rintro ⟨rest, nonempty, same⟩
    obtain ⟨below, split, bytes⟩ := segments_of_bytes_append ha hb same.symm
    refine ⟨below, ?_, split⟩
    rintro rfl
    exact nonempty bytes
  · rintro ⟨below, nonempty, split⟩
    refine ⟨(⟨below⟩ : RowKey).bytes, ?_, ?_⟩
    · intro empty
      cases below with
      | nil => exact nonempty rfl
      | cons s below =>
        rw [bytes_cons, List.append_eq_nil_iff] at empty
        exact s.bytes_ne_nil empty.1
    · rw [← bytes_append, ← split]

theorem isAbove_push_iff {a b : RowKey} (ha : a.IsWritten) (hb : b.IsWritten) (table : TableId)
    (value : Value) :
    a.isAbove (b.push table value) = true ↔ a.segments <+: b.segments := by
  rw [isAbove_iff_segments ha (hb.push table value), segments_push]
  constructor
  · rintro ⟨below, nonempty, split⟩
    obtain ⟨front, last, rfl⟩ := List.eq_nil_or_concat below |>.resolve_left nonempty
    rw [List.concat_eq_append, ← List.append_assoc] at split
    exact ⟨front, (List.append_inj' split rfl).1.symm⟩
  · rintro ⟨below, split⟩
    exact ⟨below ++ [.of table value], by simp, by rw [← List.append_assoc, split]⟩

/-- A legible key reads back from its bytes. -/
theorem readSegments_bytes {segments : List Segment} (legible : (⟨segments⟩ : RowKey).IsLegible)
    (fuel offset : Nat) (enough : (⟨segments⟩ : RowKey).bytes.length ≤ fuel) :
    readSegments fuel offset (⟨segments⟩ : RowKey).bytes = .ok segments := by
  induction segments generalizing fuel offset with
  | nil => cases fuel <;> rfl
  | cons s rest ih =>
    obtain ⟨v, reads⟩ := legible s (by simp)
    have table : TableId.ofNat (Bytes.ofBigEndian (Bytes.bigEndian 2 s.table.toNat)) = s.table := by
      rw [TableId.ofBigEndian_bigEndian]
      exact TableId.toNat_inj.1 (TableId.toNat_ofNat (UInt16.toNat_lt_size _))
    rw [bytes_cons] at enough ⊢
    simp only [Segment.bytes, Bytes.bigEndian, List.cons_append, List.nil_append] at enough table ⊢
    cases fuel with
    | zero => simp at enough
    | succ fuel =>
      have rest' := ih (fun x member => legible x (List.mem_cons_of_mem _ member)) fuel
      simp only [List.length_cons, List.length_append] at enough
      have used : (s.value ++ (⟨rest⟩ : RowKey).bytes).length - (⟨rest⟩ : RowKey).bytes.length =
          s.value.length := by simp
      rw [readSegments, reads]
      simp only [used, List.take_left, table]
      rw [rest' _ (by omega)]
      rfl

theorem IsLegible.ofBytes_bytes {k : RowKey} (legible : k.IsLegible) : ofBytes k.bytes = .ok k := by
  simp [ofBytes, readSegments_bytes legible _ _ (Nat.le_refl _), Except.map]

theorem IsWritten.legible {k : RowKey} (written : k.IsWritten) : k.IsLegible :=
  fun s member => (written s member).legible

theorem ofBytes_bytes {k : RowKey} (written : k.IsWritten) : ofBytes k.bytes = .ok k :=
  written.legible.ofBytes_bytes

end RowKey

end Interleave
