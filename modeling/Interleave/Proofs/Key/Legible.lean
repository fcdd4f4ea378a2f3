import Interleave.Proofs.Codec.Forms
import Interleave.Proofs.Key.Paths

/-!
Keys that read. Reading a value uses the bytes up to its end and nothing after them, so a key that reads
is made of segments that read one by one, and so is every key on the way to it. Main statement: stored
bytes read as a key exactly when they are its bytes and each of its segments reads.
-/

namespace Interleave

namespace Codec.Sortable

/-- Whether a reader uses nothing after the end of what it reads. -/
def Local {α : Type} (reader : Bytes → Except EncodingFault (α × Bytes)) : Prop :=
  ∀ input a rest, reader input = .ok (a, rest) →
    ∃ front, input = front ++ rest ∧ ∀ tail, reader (front ++ tail) = .ok (a, tail)

/-- Reading a value uses nothing after its end. -/
theorem read_local : Local read := by
  intro input v rest ok
  obtain ⟨form, rfl, spells⟩ := spells_of_read ok
  exact ⟨form, rfl, spells.read⟩

end Codec.Sortable

namespace RowKey

theorem legible_of_readSegments {fuel offset : Nat} {input : Bytes} {segments : List Segment}
    (ok : readSegments fuel offset input = .ok segments) :
    (⟨segments⟩ : RowKey).bytes = input ∧ (⟨segments⟩ : RowKey).IsLegible := by
  induction fuel generalizing offset input segments with
  | zero =>
    rcases input with _ | ⟨high, input⟩
    · obtain rfl := Except.ok.inj ok
      exact ⟨rfl, fun s none => by cases none⟩
    · cases ok
  | succ fuel ih =>
    rcases input with _ | ⟨high, _ | ⟨low, input⟩⟩
    · obtain rfl := Except.ok.inj ok
      exact ⟨rfl, fun s none => by cases none⟩
    · cases ok
    rw [readSegments] at ok
    split at ok
    · cases ok
    next v rest read =>
    obtain ⟨below, others, rfl⟩ := map_eq_ok ok
    obtain ⟨bytes, legible⟩ := ih others
    obtain ⟨front, rfl, again⟩ := Codec.Sortable.read_local _ _ _ read
    have length : (front ++ rest).length - rest.length = front.length := by simp
    have number : Bytes.bigEndian 2 (TableId.ofNat (Bytes.ofBigEndian [high, low])).toNat =
        [high, low] := by
      rw [TableId.toNat_ofNat (Bytes.ofBigEndian_lt [high, low])]
      exact Bytes.bigEndian_ofBigEndian [high, low]
    simp only [length, List.take_left]
    refine ⟨?_, List.forall_mem_cons.2 ⟨⟨v, again⟩, legible⟩⟩
    rw [bytes_cons, Segment.bytes, number, bytes]
    rfl

/-- Stored bytes read as a key exactly when they are the bytes of the key and it is legible. -/
theorem ofBytes_eq_ok_iff {bytes : Bytes} {k : RowKey} :
    ofBytes bytes = .ok k ↔ k.bytes = bytes ∧ k.IsLegible := by
  constructor
  · intro ok
    obtain ⟨segments, read, rfl⟩ := map_eq_ok ok
    exact legible_of_readSegments read
  · rintro ⟨rfl, legible⟩
    exact legible.ofBytes_bytes

theorem IsLegible.truncate {k : RowKey} (legible : k.IsLegible) (depth : Nat) :
    (k.truncate depth).IsLegible :=
  fun s member => legible s (List.mem_of_mem_take member)

/-- Legible keys differ in their bytes. -/
theorem IsLegible.bytes_inj {a b : RowKey} (ha : a.IsLegible) (hb : b.IsLegible)
    (same : a.bytes = b.bytes) :
    a = b := by
  have read := hb.ofBytes_bytes
  rw [← same, ha.ofBytes_bytes] at read
  exact Except.ok.inj read

/-- The ways to a key: none above the roots, one level down, back up, and from bytes that read. -/
inductive Made : RowKey → Prop where
  | empty : Made .empty
  | push {k : RowKey} (made : Made k) (table : TableId) (value : Value) : Made (k.push table value)
  | truncate {k : RowKey} (made : Made k) (depth : Nat) : Made (k.truncate depth)
  | read {bytes : Bytes} {k : RowKey} (reads : ofBytes bytes = .ok k) : Made k

theorem Made.legible {k : RowKey} (made : k.Made) : k.IsLegible := by
  induction made with
  | empty => exact fun s none => by cases none
  | push _ table value ih =>
    refine List.forall_mem_append.2 ⟨ih, List.forall_mem_singleton.2 ?_⟩
    exact (Segment.isWritten_of table value).legible
  | truncate _ depth ih => exact ih.truncate depth
  | read reads => exact (ofBytes_eq_ok_iff.1 reads).2

end RowKey

end Interleave
