import Interleave.Proofs.Codec.ValueOrder
import Interleave.Proofs.Key.Paths
import Interleave.Proofs.Storage.Ranges

/-!
Keys in order. The bytes of a key begin those of every key below it, and segments keep the order of
their tables and values. Main statement: keys in the order of their bytes are in the order of a walk
over the hierarchy that visits a row before the rows below it.
-/

namespace Interleave

theorem Bytes.order_append_left (p a b : Bytes) : order (p ++ a) (p ++ b) = order a b := by
  rw [order_append rfl, order_self]
  rfl

/-- Segments go by table and then by value, whatever stands below them. -/
theorem Segment.order_of_append (t t' : TableId) (v v' : Value) (r s : Bytes) :
    Bytes.order ((of t v).bytes ++ r) ((of t' v').bytes ++ s) =
      ((compare t.toNat t'.toNat).then (v.keyOrder v')).then (Bytes.order r s) := by
  have small (id : TableId) : id.toNat % Bytes.wordCount 2 = id.toNat :=
    Nat.mod_eq_of_lt (UInt16.toNat_lt_size id.num)
  simp only [bytes, of, List.append_assoc]
  rw [Bytes.order_append (by simp), Bytes.order_bigEndian, small, small,
    Codec.Sortable.order_encode_append, Ordering.then_assoc]

namespace RowKey

theorem isAbove_iff_prefix {a b : RowKey} :
    a.isAbove b = true ↔ a.bytes <+: b.bytes ∧ a.bytes ≠ b.bytes := by
  rw [isAbove_iff]
  constructor
  · rintro ⟨below, nonempty, same⟩
    rw [same]
    exact ⟨List.prefix_append _ _, fun whole => nonempty (List.self_eq_append_right.1 whole)⟩
  · rintro ⟨⟨below, same⟩, different⟩
    refine ⟨below, ?_, same.symm⟩
    rintro rfl
    exact different (by rw [← same, List.append_nil])

theorem lt_of_isAbove {a b : RowKey} (above : a.isAbove b = true) : a.bytes < b.bytes := by
  obtain ⟨below, nonempty, same⟩ := (isAbove_iff a b).1 above
  rw [same]
  conv_lhs => rw [← List.append_nil a.bytes]
  rw [Bytes.append_lt_append_iff]
  cases below with
  | nil => exact absurd rfl nonempty
  | cons b below => exact List.nil_lt_cons b below

/-- Where two paths part their keys go by the segments there. -/
theorem order_parting (above : List Segment) (t t' : TableId) (v v' : Value)
    (below below' : List Segment) :
    (⟨above ++ .of t v :: below⟩ : RowKey).order ⟨above ++ .of t' v' :: below'⟩ =
      ((compare t.toNat t'.toNat).then (v.keyOrder v')).then
        (Bytes.order (⟨below⟩ : RowKey).bytes (⟨below'⟩ : RowKey).bytes) := by
  rw [order, bytes_append, bytes_append, Bytes.order_append_left, bytes_cons, bytes_cons,
    Segment.order_of_append]

end RowKey

/-- Whether keys are in the order of a walk over the hierarchy: the keys below a key come in one block
right after it, and where two paths part they go by table and then by key value. -/
structure DepthFirst (keys : List RowKey) : Prop where
  increasing : keys.Pairwise fun a b => a.order b = .lt
  blocks : ∀ before k after, keys = before ++ k :: after → ∃ below rest, after = below ++ rest ∧
    (∀ x ∈ below, k.isAbove x = true) ∧ ∀ x ∈ before ++ rest, k.isAbove x = false
  siblings : keys.Pairwise fun a b => ∀ above t v below t' v' below',
    a.segments = above ++ .of t v :: below → b.segments = above ++ .of t' v' :: below' →
      Segment.of t v ≠ .of t' v' → (compare t.toNat t'.toNat).then (v.keyOrder v') = .lt

namespace DepthFirst

/-- A key between a key and one below it is below it as well. -/
theorem isAbove_of_between {a b c : RowKey} (first : a.bytes < b.bytes) (last : b.bytes < c.bytes)
    (above : a.isAbove c = true) : a.isAbove b = true := by
  rw [RowKey.isAbove_iff_prefix] at above ⊢
  have inside := (Bytes.prefix_iff_between _ _).1 above.1
  refine ⟨(Bytes.prefix_iff_between _ _).2 ⟨List.lt_asymm first, fun next found => ?_⟩, ?_⟩
  · exact List.lt_trans last (inside.2 next found)
  · intro same
    rw [same] at first
    exact List.lt_irrefl _ first

/-- The first key that is not below a key ends the block of those below it. -/
theorem block {k : RowKey} {after : List RowKey}
    (sorted : (k :: after).Pairwise fun a b => a.bytes < b.bytes) :
    ∃ below rest, after = below ++ rest ∧ (∀ x ∈ below, k.isAbove x = true) ∧
      ∀ x ∈ rest, k.isAbove x = false := by
  induction after with
  | nil => exact ⟨[], [], rfl, by simp, by simp⟩
  | cons x after ih =>
    have ⟨first, others⟩ := List.pairwise_cons.1 sorted
    cases above : k.isAbove x with
    | true =>
      obtain ⟨below, rest, split, inside, outside⟩ :=
        ih (sorted.sublist (.cons_cons k (List.sublist_cons_self x after)))
      exact ⟨x :: below, rest, by rw [split, List.cons_append],
        List.forall_mem_cons.2 ⟨above, inside⟩, outside⟩
    | false =>
      refine ⟨[], x :: after, rfl, by simp, List.forall_mem_cons.2 ⟨above, fun y later => ?_⟩⟩
      rw [← Bool.not_eq_true]
      intro below
      have later := (List.pairwise_cons.1 others).1 y later
      rw [isAbove_of_between (first x List.mem_cons_self) later below] at above
      cases above

/-- Keys in the order of their bytes go through the hierarchy depth first. -/
theorem of_sorted {keys : List RowKey} (sorted : keys.Pairwise fun a b => a.bytes < b.bytes) :
    DepthFirst keys where
  increasing := sorted.imp fun less => Bytes.order_eq_lt_iff.2 less
  blocks before k after split := by
    rw [split, List.pairwise_append] at sorted
    obtain ⟨below, rest, split', inside, outside⟩ := block sorted.2.1
    refine ⟨below, rest, split', inside, fun x member => ?_⟩
    rcases List.mem_append.1 member with earlier | later
    · rw [← Bool.not_eq_true]
      intro above
      exact List.lt_asymm (RowKey.lt_of_isAbove above) (sorted.2.2 x earlier k List.mem_cons_self)
    · exact outside x later
  siblings := by
    refine sorted.imp fun {a b} less above t v below t' v' below' split split' apart => ?_
    obtain ⟨segments⟩ := a
    obtain ⟨segments'⟩ := b
    subst split split'
    have parting := Bytes.order_eq_lt_iff.2 less
    rw [show Bytes.order _ _ = _ from RowKey.order_parting above t t' v v' below below',
      Ordering.then_eq_lt] at parting
    refine parting.resolve_right fun same => apart ?_
    rw [Ordering.then_eq_eq, Nat.compare_eq_eq, TableId.toNat_inj, Value.keyOrder_eq_eq_iff,
      ← Codec.Sortable.encode_eq_iff] at same
    rw [Segment.of, Segment.of, same.1.1, same.1.2]

end DepthFirst

end Interleave
