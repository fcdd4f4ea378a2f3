import Mathlib.Data.List.Forall2
import Interleave.Proofs.Key.Legible

/-!
Reading a key offset by offset. Whatever the stored bytes are, each turn looks only at bytes that are
there and either fails or moves on, so the turns come to an end and find where the segments of the key end.
Main statement: bytes read as a key just if they are tables and spelled values one after another, and the
key is made again from its path just if none of the values is an odd NaN.
-/

namespace Interleave

open Codec.Sortable

namespace Segment

theorem length_bytes (s : Segment) : s.bytes.length = 2 + s.value.length := by
  rw [bytes, List.length_append, Bytes.length_bigEndian]

theorem isLegible_iff {s : Segment} : s.IsLegible ↔ ∃ v, Spells s.value v := by
  refine exists_congr fun v => ⟨fun reads => ?_, fun spells => spells.read⟩
  obtain ⟨form, same, spells⟩ := read_eq_ok_iff.1 (reads [])
  rw [List.append_nil, List.append_nil] at same
  exact same ▸ spells

/-- A segment is made again from the value that it spells, unless that is an odd NaN. -/
theorem of_eq_iff {s : Segment} {v : Value} (spells : Spells s.value v) :
    of s.table v = s ↔ ∀ x, ¬ IsOddNaN s.value x := by
  constructor
  · intro same x odd
    exact odd.ne_encode v (congrArg Segment.value same).symm
  · intro plain
    rcases spells with ⟨form, _⟩ | ⟨x, _, odd⟩
    · rw [of, ← form]
    · exact absurd odd (plain x)

end Segment

namespace RowKey

/-- The bytes from an offset on, unless it lies beyond their end. -/
def slice? (b : Bytes) (offset : Nat) : Option Bytes :=
  if offset ≤ b.length then some (b.drop offset) else none

/-- One turn: where the segment ends that begins at an offset. It has no answer when it would look beyond
the end. -/
def segmentEnd? (b : Bytes) (offset : Nat) : Option (Except EncodingFault Nat) :=
  if b.length - offset < 2 then some (.error (.truncatedSegment offset))
  else (slice? b (offset + 2)).map fun input =>
    (readPrefix input).map fun (_, used) => offset + 2 + used

/-- Turn after turn: where all segments from an offset on end. It has no answer either when the turns do
not suffice. -/
def segmentEnds? (b : Bytes) : Nat → Nat → Option (Except EncodingFault (List Nat))
  | 0, offset => if b.length ≤ offset then some (.ok []) else none
  | turns + 1, offset =>
    if b.length ≤ offset then some (.ok [])
    else match segmentEnd? b offset with
      | none => none
      | some (.error fault) => some (.error fault)
      | some (.ok next) => (segmentEnds? b turns next).map (Except.map (next :: ·))

/-- Where segments end that begin at an offset. -/
def endsFrom : Nat → List Segment → List Nat
  | _, [] => []
  | offset, s :: rest => (offset + s.bytes.length) :: endsFrom (offset + s.bytes.length) rest

/-- Where the segments of a key end in its bytes. -/
def ends (k : RowKey) : List Nat := endsFrom 0 k.segments

variable {b : Bytes} {offset next turns fuel : Nat}

/-- A turn moves on and stays inside. -/
theorem segmentEnd?_moves (found : segmentEnd? b offset = some (.ok next)) :
    offset < next ∧ next ≤ b.length := by
  unfold segmentEnd? at found
  split at found
  · cases found
  · next enough =>
    obtain ⟨input, sliced, read⟩ := Option.map_eq_some_iff.1 found
    obtain ⟨-, same⟩ := Option.ite_none_right_eq_some.1 sliced
    obtain rfl := Option.some.inj same
    obtain ⟨⟨v, used⟩, prefixed, end'⟩ := map_eq_ok read
    obtain ⟨positive, inside, -⟩ := readPrefix_eq_ok_iff.1 prefixed
    rw [List.length_drop] at inside
    change offset + 2 + used = next at end'
    omega

theorem segmentEnd?_short (short : b.length - offset < 2) :
    segmentEnd? b offset = some (.error (.truncatedSegment offset)) :=
  if_pos short

/-- A turn that has bytes enough for the number of a table reads a value behind it. -/
theorem segmentEnd?_long {high low : UInt8} {input : Bytes} (rest : b.drop offset = high :: low :: input) :
    segmentEnd? b offset = some ((readPrefix input).map fun (_, used) => offset + 2 + used) := by
  have length := congrArg List.length rest
  rw [List.length_drop, List.length_cons, List.length_cons] at length
  have behind : b.drop (offset + 2) = input := by rw [← List.drop_drop, rest]; rfl
  rw [segmentEnd?, if_neg (by omega), slice?, if_pos (by omega), behind]
  rfl

theorem readSegments_nil (fuel offset : Nat) : readSegments fuel offset [] = .ok [] := by
  cases fuel <;> rfl

/-- The turns from an offset on find the ends of the segments that are read from there. -/
theorem segmentEnds?_eq (enough : b.length - offset ≤ turns) (enough' : b.length - offset ≤ fuel) :
    segmentEnds? b turns offset =
      some ((readSegments fuel offset (b.drop offset)).map (endsFrom offset)) := by
  induction turns generalizing offset fuel with
  | zero =>
    have past : b.length ≤ offset := by omega
    rw [segmentEnds?, if_pos past, List.drop_eq_nil_of_le past, readSegments_nil]
    rfl
  | succ turns ih =>
    rw [segmentEnds?]
    split
    · next past =>
      rw [List.drop_eq_nil_of_le past, readSegments_nil]
      rfl
    next more =>
    obtain ⟨fuel, rfl⟩ : ∃ k, fuel = k + 1 := ⟨fuel - 1, by omega⟩
    have length : (b.drop offset).length = b.length - offset := List.length_drop
    rcases rest : b.drop offset with _ | ⟨high, _ | ⟨low, input⟩⟩ <;> rw [rest] at length
    · simp only [List.length_nil] at length
      omega
    · rw [segmentEnd?_short (by rw [← length]; exact Nat.lt_succ_self 1)]
      rfl
    rw [segmentEnd?_long rest, readSegments, readPrefix]
    cases read : Codec.Sortable.read input with
    | error fault => rfl
    | ok result =>
      obtain ⟨v, tail⟩ := result
      obtain ⟨form, rfl, spells⟩ := spells_of_read read
      have used : (form ++ tail).length - tail.length = form.length := by simp
      have behind : b.drop (offset + 2 + form.length) = tail := by
        rw [← List.drop_drop, ← List.drop_drop, rest]
        exact List.drop_left
      have onward : b.length - (offset + 2 + form.length) = tail.length := by
        rw [← behind, List.length_drop]
      simp only [List.length_cons, List.length_append] at length
      have others := @ih (offset + 2 + form.length) fuel (by omega) (by omega)
      rw [behind] at others
      simp only [Except.map, used, List.take_left] at others ⊢
      rw [others]
      cases readSegments fuel (offset + 2 + form.length) tail with
      | error fault => rfl
      | ok segments =>
        simp only [endsFrom, Segment.length_bytes, ← Nat.add_assoc]
        rfl

/-- As many turns as there are bytes find the ends of the key that is read. -/
theorem segmentEnds?_ofBytes (enough : b.length ≤ turns) :
    segmentEnds? b turns 0 = some ((ofBytes b).map ends) := by
  rw [segmentEnds?_eq (by omega) (Nat.le_refl (b.length - 0))]
  cases read : readSegments b.length 0 b with
  | error fault => simp [ofBytes, read, Except.map]
  | ok segments => simp [ofBytes, read, Except.map, ends]

/-- Whether a path gives the tables and the values that segments hold. -/
def Tells (segments : List Segment) (path : List (TableId × Value)) : Prop :=
  List.Forall₂ (fun s p => p.1 = s.table ∧ Spells s.value p.2) segments path

theorem exists_path {segments : List Segment} (legible : (⟨segments⟩ : RowKey).IsLegible) :
    ∃ path, decodeSegments segments = .ok path ∧ Tells segments path := by
  induction segments with
  | nil => exact ⟨[], rfl, .nil⟩
  | cons s rest ih =>
    obtain ⟨first, others⟩ := List.forall_mem_cons.1 legible
    obtain ⟨v, spells⟩ := Segment.isLegible_iff.1 first
    obtain ⟨path, decoded, tells⟩ := ih others
    have reads := spells.read []
    rw [List.append_nil] at reads
    exact ⟨(s.table, v) :: path, by simp only [decodeSegments, reads, decoded]; rfl,
      .cons ⟨rfl, spells⟩ tells⟩

/-- Segments are made again from their path where none of them holds an odd NaN. -/
theorem map_of_eq_iff {segments : List Segment} {path : List (TableId × Value)}
    (tells : Tells segments path) :
    (path.map fun p => Segment.of p.1 p.2) = segments ↔
      ∀ s ∈ segments, ∀ x, ¬ IsOddNaN s.value x := by
  induction tells with
  | nil => simp
  | @cons s p segments path first _ ih =>
    rw [List.map_cons, List.cons.injEq, ih, List.forall_mem_cons, first.1, Segment.of_eq_iff first.2]

/-- Every string of bytes is read safely and exactly. A value that reads takes up bytes that spell it. Each
turn of the reader of a key moves on inside the bytes, and no more turns than there are bytes find where the
segments end. What reads as a key is a string of tables and spelled values, and these are its bytes; the key
has a path and is made again from it just if no segment holds an odd NaN. -/
theorem reads_exactly (b : Bytes) :
    (∀ v used, readPrefix b = .ok (v, used) ↔
      1 ≤ used ∧ used ≤ b.length ∧ Spells (b.take used) v) ∧
    (∀ offset next, segmentEnd? b offset = some (.ok next) → offset < next ∧ next ≤ b.length) ∧
    (∀ turns, b.length ≤ turns → segmentEnds? b turns 0 = some ((ofBytes b).map ends)) ∧
    ((∃ k, ofBytes b = .ok k) ↔ ∃ segments : List Segment, b = segments.flatMap Segment.bytes ∧
      ∀ s ∈ segments, ∃ v, Spells s.value v) ∧
    ∀ k, ofBytes b = .ok k → k.bytes = b ∧ ∃ path, k.path = .ok path ∧
      (ofSegments path = k ↔ ∀ s ∈ k.segments, ∀ x, ¬ IsOddNaN s.value x) := by
  refine ⟨fun v used => readPrefix_eq_ok_iff, fun offset next => segmentEnd?_moves,
    fun turns enough => segmentEnds?_ofBytes enough, ?_, fun k read => ?_⟩
  · constructor
    · rintro ⟨k, read⟩
      obtain ⟨bytes, legible⟩ := ofBytes_eq_ok_iff.1 read
      exact ⟨k.segments, bytes.symm, fun s member => Segment.isLegible_iff.1 (legible s member)⟩
    · rintro ⟨segments, rfl, spelled⟩
      exact ⟨⟨segments⟩, ofBytes_eq_ok_iff.2
        ⟨rfl, fun s member => Segment.isLegible_iff.2 (spelled s member)⟩⟩
  · obtain ⟨bytes, legible⟩ := ofBytes_eq_ok_iff.1 read
    obtain ⟨path, decoded, tells⟩ := exists_path legible
    refine ⟨bytes, path, decoded, ?_⟩
    rw [← map_of_eq_iff tells, ← segments_ofSegments]
    exact ⟨congrArg RowKey.segments, fun same => congrArg RowKey.mk same⟩

/-- A row without a key value below one whose key value is an odd NaN. -/
def oddBytes : Bytes := [0, 1, 3, 255, 248, 0, 0, 0, 0, 0, 0, 0, 2, 0]

/-- Two segments, found in two turns, that are not made again from their path. -/
theorem reads_exactly_nan : segmentEnd? oddBytes 0 = some (.ok 11) ∧ 0 < 11 ∧ 11 ≤ oddBytes.length ∧
    oddBytes.length ≤ 14 ∧ segmentEnds? oddBytes 14 0 = some (.ok [11, 14]) ∧
    ∃ k, ofBytes oddBytes = .ok k ∧ k.bytes = oddBytes ∧
      ∃ path, k.path = .ok path ∧ ofSegments path ≠ k := by
  have exactly := reads_exactly oddBytes
  have turn : segmentEnd? oddBytes 0 = some (.ok 11) := by decide +kernel
  have enough : oddBytes.length ≤ 14 := by decide
  have key : ofBytes oddBytes = .ok ⟨[⟨⟨1⟩, [3, 255, 248, 0, 0, 0, 0, 0, 0]⟩, ⟨⟨2⟩, [0]⟩]⟩ := by
    decide +kernel
  have odd : IsOddNaN [3, 255, 248, 0, 0, 0, 0, 0, 0] .nan :=
    ⟨by decide, 0xfff8000000000000, by decide, by decide, by decide⟩
  have moves := exactly.2.1 0 11 turn
  have turns := exactly.2.2.1 14 enough
  obtain ⟨bytes, path, decoded, again⟩ := exactly.2.2.2.2 _ key
  rw [key] at turns
  exact ⟨turn, moves.1, moves.2, enough, turns, _, key, bytes, path, decoded,
    fun same => again.1 same _ List.mem_cons_self _ odd⟩

end RowKey

end Interleave
