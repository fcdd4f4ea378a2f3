import Mathlib.Data.List.Forall2
import Interleave.Proofs.Key.Preorder

/-!
Keys and the paths that they were made from. Main statement: keys are in the order of their paths, step by
step, are the same exactly when their paths are, and one is above another exactly when its path begins the
other's; between a key and a key below it there are only keys below it.
-/

namespace Interleave

theorem Segment.of_eq_of_iff (t t' : TableId) (v v' : Value) :
    Segment.of t v = Segment.of t' v' ↔ (t, v.canonical) = (t', v'.canonical) := by
  rw [Segment.of, Segment.of, Segment.mk.injEq, Prod.mk.injEq, Codec.Sortable.encode_eq_iff]

namespace RowKey

/-- Steps of a path go by table and then by key value. -/
def stepOrder (s t : TableId × Value) : Ordering :=
  (compare s.1.toNat t.1.toNat).then (s.2.keyOrder t.2)

/-- A path as keys know it: every NaN is the same one. -/
def canonicalPath (path : List (TableId × Value)) : List (TableId × Value) :=
  path.map fun s => (s.1, s.2.canonical)

theorem ofSegments_eq (path : List (TableId × Value)) :
    ofSegments path = ⟨path.map fun s => Segment.of s.1 s.2⟩ :=
  congrArg RowKey.mk (segments_ofSegments path)

theorem ofSegments_cons_bytes (s : TableId × Value) (path : List (TableId × Value)) :
    (ofSegments (s :: path)).bytes = (Segment.of s.1 s.2).bytes ++ (ofSegments path).bytes := by
  rw [ofSegments_eq, ofSegments_eq, List.map_cons, bytes_cons]

/-- Keys go step by step. The key of a path that ends first has no more bytes and comes first. -/
theorem order_ofSegments (a b : List (TableId × Value)) :
    (ofSegments a).order (ofSegments b) = List.compareLex stepOrder a b := by
  rw [order]
  induction a generalizing b with
  | nil =>
    cases b with
    | nil => rfl
    | cons t b =>
      rw [ofSegments_cons_bytes, List.compareLex_nil_cons]
      rfl
  | cons s a ih =>
    cases b with
    | nil =>
      rw [ofSegments_cons_bytes, List.compareLex_cons_nil]
      rfl
    | cons t b =>
      rw [ofSegments_cons_bytes, ofSegments_cons_bytes, Segment.order_of_append, ih,
        List.compareLex_cons_cons, stepOrder]

theorem segments_eq_iff (a b : List (TableId × Value)) :
    (a.map fun s => Segment.of s.1 s.2) = (b.map fun s => Segment.of s.1 s.2) ↔
      canonicalPath a = canonicalPath b := by
  rw [canonicalPath, canonicalPath, ← List.forall₂_eq_eq_eq, ← List.forall₂_eq_eq_eq]
  simp only [List.forall₂_map_left_iff, List.forall₂_map_right_iff, Segment.of_eq_of_iff]

theorem ofSegments_eq_iff (a b : List (TableId × Value)) :
    ofSegments a = ofSegments b ↔ canonicalPath a = canonicalPath b := by
  rw [ofSegments_eq, ofSegments_eq, RowKey.mk.injEq, segments_eq_iff]

theorem segments_prefix_iff (a b : List (TableId × Value)) :
    (ofSegments a).segments <+: (ofSegments b).segments ↔ canonicalPath a <+: canonicalPath b := by
  have front : (canonicalPath b).take a.length = canonicalPath (b.take a.length) := by
    rw [canonicalPath, canonicalPath, List.map_take]
  have length : (canonicalPath a).length = a.length := List.length_map _
  rw [segments_ofSegments, segments_ofSegments, List.prefix_iff_eq_take, List.prefix_iff_eq_take,
    List.length_map, ← List.map_take, segments_eq_iff, length, front]

/-- One key is above another when its path begins the other's and ends first. -/
theorem isAbove_ofSegments_iff (a b : List (TableId × Value)) :
    (ofSegments a).isAbove (ofSegments b) = true ↔
      canonicalPath a <+: canonicalPath b ∧ canonicalPath a ≠ canonicalPath b := by
  have written := isWritten_ofSegments
  rw [RowKey.isAbove_iff_prefix, bytes_prefix_iff (written a) (written b), segments_prefix_iff, Ne,
    bytes_inj (written a) (written b), ofSegments_eq_iff]

/-- The keys below a key are side by side, right after it. -/
theorem isAbove_of_order {k x d : RowKey} (above : k.isAbove d = true) (after : k.order x = .lt)
    (upTo : x.order d ≠ .gt) : k.isAbove x = true := by
  have later : k.bytes < x.bytes := Bytes.order_eq_lt_iff.1 after
  cases last : x.order d with
  | lt => exact DepthFirst.isAbove_of_between later (Bytes.order_eq_lt_iff.1 last) above
  | eq =>
    have same : x.bytes = d.bytes := Bytes.order_eq_eq_iff.1 last
    rw [RowKey.isAbove_iff_prefix] at above ⊢
    rwa [same]
  | gt => exact absurd last upTo

/-- Keys made from paths mirror the paths in order, sameness and descent, and the keys below any key form
an interval. -/
theorem mirrors_paths (a b : List (TableId × Value)) :
    (ofSegments a).order (ofSegments b) = List.compareLex stepOrder a b ∧
      (ofSegments a = ofSegments b ↔ canonicalPath a = canonicalPath b) ∧
      ((ofSegments a).isAbove (ofSegments b) = true ↔
        canonicalPath a <+: canonicalPath b ∧ canonicalPath a ≠ canonicalPath b) ∧
      ∀ k x d : RowKey, k.isAbove d = true → k.order x = .lt → x.order d ≠ .gt →
        k.isAbove x = true :=
  ⟨order_ofSegments a b, ofSegments_eq_iff a b, isAbove_ofSegments_iff a b,
    fun _ _ _ => isAbove_of_order⟩

/-- Below a row whose key value is a NaN stand an empty string of bytes and a zero byte, whatever the bits
of the NaN that the path of each was written with. -/
theorem mirrors_paths_nan :
    (ofSegments [(⟨1⟩, .float .nan)]).isAbove
        (ofSegments [(⟨1⟩, .float ⟨0xfff8000000000001⟩), (⟨2⟩, .bytes [0])]) = true ∧
      (ofSegments [(⟨1⟩, .float .nan)]).order
        (ofSegments [(⟨1⟩, .float ⟨0x7ff0000000000001⟩), (⟨2⟩, .bytes [])]) = .lt ∧
      (ofSegments [(⟨1⟩, .float ⟨0x7ff0000000000001⟩), (⟨2⟩, .bytes [])]).order
        (ofSegments [(⟨1⟩, .float ⟨0xfff8000000000001⟩), (⟨2⟩, .bytes [0])]) ≠ .gt ∧
      (ofSegments [(⟨1⟩, .float .nan)]).isAbove
        (ofSegments [(⟨1⟩, .float ⟨0x7ff0000000000001⟩), (⟨2⟩, .bytes [])]) = true := by
  have above : (ofSegments [(⟨1⟩, .float .nan)]).isAbove
      (ofSegments [(⟨1⟩, .float ⟨0xfff8000000000001⟩), (⟨2⟩, .bytes [0])]) = true := by decide +kernel
  have after : (ofSegments [(⟨1⟩, .float .nan)]).order
      (ofSegments [(⟨1⟩, .float ⟨0x7ff0000000000001⟩), (⟨2⟩, .bytes [])]) = .lt := by decide +kernel
  have upTo : (ofSegments [(⟨1⟩, .float ⟨0x7ff0000000000001⟩), (⟨2⟩, .bytes [])]).order
      (ofSegments [(⟨1⟩, .float ⟨0xfff8000000000001⟩), (⟨2⟩, .bytes [0])]) ≠ .gt := by decide +kernel
  exact ⟨above, after, upTo,
    (mirrors_paths [(⟨1⟩, .float .nan)] [(⟨1⟩, .float ⟨0xfff8000000000001⟩), (⟨2⟩, .bytes [0])]).2.2.2
      _ _ _ above after upTo⟩

end RowKey

end Interleave
