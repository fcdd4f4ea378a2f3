import Interleave.Proofs.Storage.Ranges

/-!
The end of the extensions of a byte string. A string with a byte that can grow ends in such a byte and then
in largest bytes only, and its successor is the beginning with that byte grown. Main statements: the strings
that begin with `p` are those from `p` on and below its successor, or all from `p` on where there is none; and
the successor is the least string past them.
-/

namespace Interleave.Bytes

theorem byte_lt_top_iff {b : UInt8} : b < 255 ↔ b ≠ 255 := by
  constructor
  · exact UInt8.ne_of_lt
  · intro different
    rcases UInt8.lt_or_lt_of_ne different with less | more
    · exact less
    · exact absurd more (by grind)

/-- The successor of a string is decided at the last byte that can grow; what follows that byte is dropped. -/
theorem successor?_grow (start : Bytes) {b : UInt8} (room : b < 255) (count : Nat) :
    successor? (start ++ b :: List.replicate count 255) = some (start ++ [b + 1]) := by
  induction start with
  | nil =>
    have full : successor? (List.replicate count 255) = none :=
      successor?_eq_none_iff.2 fun c member => List.eq_of_mem_replicate member
    rw [List.nil_append, successor?, full]
    simp [byte_lt_top_iff.1 room]
  | cons c start ih => rw [List.cons_append, successor?, ih, List.cons_append]

theorem exists_grow {p : Bytes} (room : ∃ b ∈ p, b < 255) :
    ∃ start b count, b < 255 ∧ p = start ++ b :: List.replicate count 255 := by
  induction p with
  | nil => simp at room
  | cons c rest ih =>
    by_cases later : ∃ b ∈ rest, b < 255
    · obtain ⟨start, b, count, small, rfl⟩ := ih later
      exact ⟨c :: start, b, count, small, rfl⟩
    · have full : ∀ b ∈ rest, b = 255 := by
        intro b member
        by_contra different
        exact later ⟨b, member, byte_lt_top_iff.2 different⟩
      obtain ⟨b, member, small⟩ := room
      have here : b = c := by
        rcases List.mem_cons.1 member with same | member
        · exact same
        · exact absurd (full b member) (byte_lt_top_iff.1 small)
      exact ⟨[], c, rest.length, here ▸ small, by rw [← List.eq_replicate_of_mem full]; rfl⟩

/-- Whether a string lies past all that begin with `p`. -/
def IsPast (p next : Bytes) : Prop := ∀ t, p <+: t → t < next

theorem isPast_successor {p next : Bytes} (found : successor? p = some next) : IsPast p next :=
  fun t inside => ((prefix_iff_between p t).1 inside).2 next found

theorem isPrefix_of_le {p t : Bytes} (full : successor? p = none) (above : p ≤ t) : p <+: t := by
  refine (prefix_iff_between p t).2 ⟨List.not_lt.2 above, fun next found => ?_⟩
  rw [full] at found
  cases found

/-- Without a successor nothing lies past all that begin with `p`. -/
theorem successor?_eq_none_iff_not_isPast {p : Bytes} :
    successor? p = none ↔ ∀ next, ¬ IsPast p next := by
  constructor
  · intro full next past
    have above : p < next := past p List.prefix_rfl
    exact List.lt_irrefl next (past next (isPrefix_of_le full (List.le_of_lt above)))
  · intro none
    cases found : successor? p with
    | none => rfl
    | some next => exact absurd (isPast_successor found) (none next)

theorem le_of_isPast {p next other : Bytes} (found : successor? p = some next) (past : IsPast p other) :
    next ≤ other := by
  -- A string above `p` and below the successor begins with `p`, so it would lie past itself.
  by_contra below
  have above : p < other := past p List.prefix_rfl
  have inside : p <+: other := by
    refine (prefix_iff_between p other).2 ⟨List.lt_asymm above, fun last found' => ?_⟩
    rw [found] at found'
    exact Option.some.inj found' ▸ List.not_le.1 below
  exact List.lt_irrefl other (past other inside)

/-- The successor is the least string past all that begin with `p`. -/
theorem successor?_eq_some_iff {p next : Bytes} :
    successor? p = some next ↔ IsPast p next ∧ ∀ other, IsPast p other → next ≤ other := by
  constructor
  · exact fun found => ⟨isPast_successor found, fun other past => le_of_isPast found past⟩
  · rintro ⟨past, first⟩
    cases found : successor? p with
    | none => exact absurd past (successor?_eq_none_iff_not_isPast.1 found next)
    | some other => rw [List.le_antisymm (le_of_isPast found past) (first other (isPast_successor found))]

/-- The strings that begin with `p` are those from `p` on and below its successor. There is a successor just if
some byte of `p` can grow, and otherwise all strings from `p` on begin with `p`. -/
theorem successor?_bounds (p : Bytes) :
    ((∃ b ∈ p, b < 255) →
      ∃ next, successor? p = some next ∧ ∀ t, p <+: t ↔ p ≤ t ∧ t < next) ∧
    ((∀ b ∈ p, b = 255) → successor? p = none ∧ ∀ t, p ≤ t → p <+: t) := by
  constructor
  · intro room
    obtain ⟨start, b, count, small, same⟩ := exists_grow room
    have found : successor? p = some (start ++ [b + 1]) := same ▸ successor?_grow start small count
    refine ⟨_, found, fun t => ?_⟩
    rw [prefix_iff_between, List.not_lt, found]
    simp
  · intro full
    have none := successor?_eq_none_iff.2 full
    exact ⟨none, fun t => isPrefix_of_le none⟩

/-- Two largest bytes at the end are dropped, and a lone largest byte has no successor. -/
theorem successor?_bounds_largest :
    ((∃ b ∈ ([7, 255, 255] : Bytes), b < 255) ∧
      ∀ t : Bytes, [7, 255, 255] <+: t ↔ [7, 255, 255] ≤ t ∧ t < [8]) ∧
    ((∀ b ∈ ([255] : Bytes), b = 255) ∧ ∀ t : Bytes, [255] ≤ t → [255] <+: t) := by
  have room : ∃ b ∈ ([7, 255, 255] : Bytes), b < 255 := ⟨7, by simp, by decide⟩
  have full : ∀ b ∈ ([255] : Bytes), b = 255 := fun b member => List.mem_singleton.1 member
  obtain ⟨next, found, between⟩ := (successor?_bounds [7, 255, 255]).1 room
  have eight : successor? [7, 255, 255] = some [8] := by decide
  obtain rfl : next = [8] := Option.some.inj (found.symm.trans eight)
  exact ⟨⟨room, between⟩, full, ((successor?_bounds [255]).2 full).2⟩

end Interleave.Bytes
