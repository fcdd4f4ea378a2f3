import Interleave.IndexRange
import Interleave.Proofs.Codec.ValueOrder
import Interleave.Proofs.Storage.Ranges

/-!
Ranges and tuples. An end of a range speaks of the leading columns of a tuple. Main statement: the ends of
a range on bytes admit an index key exactly when the range admits its tuple, whatever row key follows.
-/

namespace Interleave

open Storage (Bound)
open Codec.Sortable (encodeAll)

section Leading

variable {α : Type} {order : α → α → Ordering} {a b : List α} (length : a.length = b.length)
include length

theorem compareLex_append (r s : List α) : List.compareLex order (a ++ r) (b ++ s) =
    (List.compareLex order a b).then (List.compareLex order r s) := by
  induction a generalizing b with
  | nil =>
    obtain rfl := List.length_eq_zero_iff.1 length.symm
    rfl
  | cons x a ih =>
    cases b with
    | nil => cases length
    | cons y b =>
      rw [List.cons_append, List.cons_append, List.compareLex_cons_cons, List.compareLex_cons_cons,
        ih (Nat.succ.inj length), Ordering.then_assoc]

/-- The leading elements decide first. -/
theorem compareLex_take (n : Nat) : List.compareLex order a b =
    (List.compareLex order (a.take n) (b.take n)).then
      (List.compareLex order (a.drop n) (b.drop n)) := by
  rw [← compareLex_append (by simp [length]), List.take_append_drop, List.take_append_drop]

end Leading

namespace Codec.Sortable

theorem encodeAll_append (vs ws : List Value) :
    encodeAll (vs ++ ws) = encodeAll vs ++ encodeAll ws :=
  List.flatMap_append

section Leading

variable {vs ws : List Value} (length : vs.length = ws.length)
include length

theorem encodeAll_lt_iff (rest : Bytes) :
    encodeAll vs ++ rest < encodeAll ws ↔ List.compareLex Value.keyOrder vs ws = .lt := by
  have whole := order_encodeAll_append length rest []
  rw [List.append_nil] at whole
  rw [← Bytes.order_eq_lt_iff, whole, Ordering.then_eq_lt, or_iff_left]
  rintro ⟨_, less⟩
  cases rest with
  | nil => cases less
  | cons b rest => cases less

theorem encodeAll_prefix_iff (rest : Bytes) :
    encodeAll ws <+: encodeAll vs ++ rest ↔ List.compareLex Value.keyOrder vs ws = .eq := by
  constructor
  · rintro ⟨tail, same⟩
    have whole := order_encodeAll_append length rest tail
    rw [same, Bytes.order_self] at whole
    exact (Ordering.then_eq_eq.1 whole.symm).1
  · intro same
    rw [← order_encodeAll, Bytes.order_eq_eq_iff] at same
    rw [same]
    exact List.prefix_append _ rest

end Leading

end Codec.Sortable

namespace Storage.Bound

/-- Before the end of the extensions of `p` come the extensions and what is below `p`. -/
theorem above_pastExtensions (p k : Bytes) :
    (pastExtensions p).above k = true ↔ k < p ∨ p <+: k := by
  have between := between_extensions p k
  rw [below_included] at between
  constructor
  · intro above
    by_cases less : k < p
    · exact .inl less
    · exact .inr (between.1 ⟨less, above⟩)
  · rintro (less | inside)
    · exact above_mono _ less ((between_extensions p p).2 (List.prefix_refl p)).2
    · exact (between.2 inside).2

theorem below_successor (p k : Bytes) :
    (∃ low, p.successor?.map included = some low ∧ low.below k = true) ↔
      ¬ (pastExtensions p).above k = true := by
  rw [pastExtensions]
  cases p.successor? with
  | none => simp [above]
  | some next => simp [above_excluded, below_included]

end Storage.Bound

namespace RangeEnd

/-- How the leading columns of a tuple compare with an end. -/
def order (e : RangeEnd) (tuple : List Value) : Ordering :=
  List.compareLex Value.keyOrder (tuple.take e.values.length) e.values

/-- Whether a tuple lies on the right side of a low end. -/
def AdmitsFrom (low : RangeEnd) (tuple : List Value) : Prop :=
  low.order tuple = .gt ∨ low.order tuple = .eq ∧ low.inclusive = true

/-- Whether a tuple lies on the right side of a high end. -/
def AdmitsTo (high : RangeEnd) (tuple : List Value) : Prop :=
  high.order tuple = .lt ∨ high.order tuple = .eq ∧ high.inclusive = true

variable {e : RangeEnd} {tuple : List Value} (fits : e.values.length ≤ tuple.length)
include fits

theorem length_take : (tuple.take e.values.length).length = e.values.length := by
  rw [List.length_take, Nat.min_eq_left fits]

theorem encodeAll_lt_iff (rest : Bytes) :
    encodeAll tuple ++ rest < encodeAll e.values ↔ e.order tuple = .lt := by
  conv_lhs => rw [← List.take_append_drop e.values.length tuple]
  rw [Codec.Sortable.encodeAll_append, List.append_assoc,
    Codec.Sortable.encodeAll_lt_iff (length_take fits), order]

theorem encodeAll_prefix_iff (rest : Bytes) :
    encodeAll e.values <+: encodeAll tuple ++ rest ↔ e.order tuple = .eq := by
  conv_lhs => rw [← List.take_append_drop e.values.length tuple]
  rw [Codec.Sortable.encodeAll_append, List.append_assoc,
    Codec.Sortable.encodeAll_prefix_iff (length_take fits), order]

theorem below_lowBound_iff (rest : Bytes) :
    (∃ low, IndexRange.lowBound? (some e) = some low ∧
      low.below (encodeAll tuple ++ rest) = true) ↔ e.AdmitsFrom tuple := by
  have less := encodeAll_lt_iff fits rest
  have inside := encodeAll_prefix_iff fits rest
  obtain ⟨values, inclusive⟩ := e
  cases inclusive with
  | true =>
    simp only [IndexRange.lowBound?, Option.some.injEq, exists_eq_left', Bound.below_included, less,
      AdmitsFrom]
    cases order ⟨values, true⟩ tuple <;> simp
  | false =>
    rw [IndexRange.lowBound?, Bound.below_successor, Bound.above_pastExtensions, less, inside,
      AdmitsFrom]
    cases order ⟨values, false⟩ tuple <;> simp

theorem above_highBound_iff (rest : Bytes) :
    (IndexRange.highBound (some e)).above (encodeAll tuple ++ rest) = true ↔ e.AdmitsTo tuple := by
  have less := encodeAll_lt_iff fits rest
  have inside := encodeAll_prefix_iff fits rest
  obtain ⟨values, inclusive⟩ := e
  cases inclusive with
  | true =>
    rw [IndexRange.highBound, Bound.above_pastExtensions, less, inside, AdmitsTo]
    cases order ⟨values, true⟩ tuple <;> simp
  | false =>
    rw [IndexRange.highBound, Bound.above_excluded, less, AdmitsTo]
    cases order ⟨values, false⟩ tuple <;> simp

omit fits

theorem order_eq : e.order tuple =
    Bytes.order (encodeAll (tuple.take e.values.length)) (encodeAll e.values) :=
  (Codec.Sortable.order_encodeAll _ _).symm

section Monotone

variable {tuple' : List Value}

/-- A high end admits what does not come after something it admits. -/
theorem AdmitsTo.down (admits : e.AdmitsTo tuple)
    (before : List.compareLex Value.keyOrder (tuple.take e.values.length)
      (tuple'.take e.values.length) ≠ .lt) :
    e.AdmitsTo tuple' := by
  rw [← Codec.Sortable.order_encodeAll, Ne, Bytes.order_eq_lt_iff] at before
  rw [AdmitsTo, order_eq, Bytes.order_eq_lt_iff, Bytes.order_eq_eq_iff] at admits
  rw [AdmitsTo, order_eq, Bytes.order_eq_lt_iff, Bytes.order_eq_eq_iff]
  rcases admits with less | ⟨same, inclusive⟩
  · exact .inl (Bytes.lt_of_not_lt_of_lt before less)
  · rw [same] at before
    rcases List.le_iff_lt_or_eq.1 (List.not_lt.1 before) with less | same'
    · exact .inl less
    · exact .inr ⟨same', inclusive⟩

/-- A low end admits what does not come before something it admits. -/
theorem AdmitsFrom.up (admits : e.AdmitsFrom tuple)
    (after : List.compareLex Value.keyOrder (tuple.take e.values.length)
      (tuple'.take e.values.length) ≠ .gt) :
    e.AdmitsFrom tuple' := by
  rw [← Codec.Sortable.order_encodeAll, Ne, Bytes.order_eq_gt_iff] at after
  rw [AdmitsFrom, order_eq, Bytes.order_eq_gt_iff, Bytes.order_eq_eq_iff] at admits
  rw [AdmitsFrom, order_eq, Bytes.order_eq_gt_iff, Bytes.order_eq_eq_iff]
  rcases admits with more | ⟨same, inclusive⟩
  · exact .inl (Bytes.lt_of_lt_of_not_lt more after)
  · rw [same] at after
    rcases List.le_iff_lt_or_eq.1 (List.not_lt.1 after) with more | same'
    · exact .inl more
    · exact .inr ⟨same'.symm, inclusive⟩

end Monotone

end RangeEnd

namespace IndexRange

/-- Whether a tuple lies in a range. A missing end admits everything. -/
def Admits (r : IndexRange) (tuple : List Value) : Prop :=
  (∀ low, r.low = some low → low.AdmitsFrom tuple) ∧ ∀ high, r.high = some high → high.AdmitsTo tuple

/-- Whether the low end of a range lies above its high end: the end that names fewer columns leaves the
other end out. -/
def Crossed (r : IndexRange) : Prop :=
  ∃ low high, r.low = some low ∧ r.high = some high ∧
    (high.values.length ≤ low.values.length ∧ ¬ high.AdmitsTo low.values ∨
      low.values.length ≤ high.values.length ∧ ¬ low.AdmitsFrom high.values)

section Tuples

variable {r : IndexRange} {tuple : List Value} (fits : r.width ≤ tuple.length)
include fits

theorem low_fits {low : RangeEnd} (found : r.low = some low) :
    low.values.length ≤ tuple.length := by
  refine le_trans ?_ fits
  rw [width, found]
  exact Nat.le_max_left _ _

theorem high_fits {high : RangeEnd} (found : r.high = some high) :
    high.values.length ≤ tuple.length := by
  refine le_trans ?_ fits
  rw [width, found]
  exact Nat.le_max_right _ _

theorem below_lowBound?_iff (rest : Bytes) :
    (∃ low, lowBound? r.low = some low ∧ low.below (encodeAll tuple ++ rest) = true) ↔
      ∀ low, r.low = some low → low.AdmitsFrom tuple := by
  cases found : r.low with
  | none => simp [lowBound?, Bound.below]
  | some low => simpa using low.below_lowBound_iff (low_fits fits found) rest

theorem above_highBound_iff (rest : Bytes) :
    (highBound r.high).above (encodeAll tuple ++ rest) = true ↔
      ∀ high, r.high = some high → high.AdmitsTo tuple := by
  cases found : r.high with
  | none => simp [highBound, Bound.above]
  | some high => simpa using high.above_highBound_iff (high_fits fits found) rest

/-- The ends on bytes admit the keys of the tuples in the range. -/
theorem keyBounds?_iff (rest : Bytes) :
    (∃ low high, r.keyBounds? = some (low, high) ∧
      low.below (encodeAll tuple ++ rest) = true ∧ high.above (encodeAll tuple ++ rest) = true) ↔
      r.Admits tuple := by
  rw [Admits, ← below_lowBound?_iff fits rest, ← above_highBound_iff fits rest]
  constructor
  · rintro ⟨low, high, found, below, above⟩
    obtain ⟨b, start, same⟩ := Option.map_eq_some_iff.1 found
    obtain ⟨rfl, rfl⟩ := Prod.mk.inj same
    exact ⟨⟨b, start, below⟩, above⟩
  · rintro ⟨⟨low, start, below⟩, above⟩
    exact ⟨low, _, by rw [keyBounds?, start]; rfl, below, above⟩

/-- No tuple lies in a crossed range. -/
theorem not_admits_of_crossed (crossed : r.Crossed) : ¬ r.Admits tuple := by
  rintro ⟨start, stop⟩
  obtain ⟨low, high, isLow, isHigh, crossed⟩ := crossed
  have start := start low isLow
  have stop := stop high isHigh
  have lowFits := low_fits fits isLow
  have highFits := high_fits fits isHigh
  have lowFirst : low.order tuple = _ :=
    compareLex_take (RangeEnd.length_take lowFits) high.values.length
  have highFirst : high.order tuple = _ :=
    compareLex_take (RangeEnd.length_take highFits) low.values.length
  rw [List.take_take] at lowFirst highFirst
  rcases crossed with ⟨shorter, leaves⟩ | ⟨shorter, leaves⟩
  · refine leaves (stop.down fun less => ?_)
    rw [Nat.min_eq_left shorter, less] at lowFirst
    rw [RangeEnd.AdmitsFrom, lowFirst] at start
    simp at start
  · refine leaves (start.up fun more => ?_)
    rw [Nat.min_eq_left shorter, more] at highFirst
    rw [RangeEnd.AdmitsTo, highFirst] at stop
    simp at stop

end Tuples

/-- Every value has bytes below the largest one, so only an end without values has nothing past it. -/
theorem keyBounds?_eq_none_iff {r : IndexRange} : r.keyBounds? = none ↔ r.low = some ⟨[], false⟩ := by
  rw [keyBounds?, Option.map_eq_none_iff]
  match r.low with
  | none => simp [lowBound?]
  | some ⟨values, true⟩ => simp [lowBound?]
  | some ⟨[], false⟩ => simp [lowBound?, encodeAll, Bytes.successor?]
  | some ⟨v :: values, false⟩ =>
    rw [lowBound?, Option.map_eq_none_iff, Bytes.successor?_eq_none_iff]
    have tag : ∃ b ∈ encodeAll (v :: values), b ≠ 255 := by
      cases v <;> exact ⟨_, List.mem_cons_self, by decide⟩
    simpa using tag

/-- The ends on bytes say what the ends on values say: the key of a tuple, whatever follows its columns,
lies on the right side of each exactly when the tuple does. They are missing only for a low end past
everything, and then no tuple lies in the range. -/
theorem keyBounds?_exact (r : IndexRange) :
    (∀ low high, r.keyBounds? = some (low, high) → ∀ tuple, r.width ≤ tuple.length → ∀ rest,
      (low.below (encodeAll tuple ++ rest) = true ↔
        ∀ e, r.low = some e → e.AdmitsFrom tuple) ∧
      (high.above (encodeAll tuple ++ rest) = true ↔
        ∀ e, r.high = some e → e.AdmitsTo tuple)) ∧
    (r.keyBounds? = none ↔ r.low = some ⟨[], false⟩) ∧
    (r.keyBounds? = none → ∀ tuple, r.width ≤ tuple.length → ¬ r.Admits tuple) := by
  refine ⟨fun low high found tuple fits rest => ?_, keyBounds?_eq_none_iff,
    fun none tuple fits admits => ?_⟩
  · obtain ⟨start, isLow, same⟩ := Option.map_eq_some_iff.1 found
    obtain ⟨rfl, rfl⟩ := Prod.mk.inj same
    refine ⟨?_, above_highBound_iff fits rest⟩
    rw [← below_lowBound?_iff fits rest]
    simp [isLow]
  · obtain ⟨low, high, found, _⟩ := (keyBounds?_iff fits []).2 admits
    rw [none] at found
    cases found

/-- Past every key of david and up to those of tom and 3, whatever stands behind them. -/
def names : IndexRange := ⟨some ⟨[.text "david"], false⟩, some ⟨[.text "tom", .int 3], true⟩⟩

theorem keyBounds?_exact_names : ∃ low high, names.keyBounds? = some (low, high) ∧
    names.width ≤ [Value.text "tom", .int 3].length ∧
    names.width ≤ [Value.text "david", .null].length ∧
    low.below (encodeAll [.text "tom", .int 3] ++ [255, 255]) = true ∧
    high.above (encodeAll [.text "tom", .int 3] ++ [255, 255]) = true ∧
    low.below (encodeAll [.text "david", .null] ++ [255]) = false ∧
    IndexRange.keyBounds? ⟨some ⟨[], false⟩, none⟩ = none ∧
    ¬ IndexRange.Admits ⟨some ⟨[], false⟩, none⟩ [.null] := by
  obtain ⟨both, _, _⟩ := keyBounds?_exact names
  obtain ⟨_, missing, none⟩ := keyBounds?_exact ⟨some ⟨[], false⟩, none⟩
  have fits : names.width ≤ [Value.text "tom", .int 3].length := by decide
  have fits' : names.width ≤ [Value.text "david", .null].length := by decide
  obtain ⟨⟨low, high⟩, found⟩ : ∃ bounds, names.keyBounds? = some bounds :=
    Option.isSome_iff_exists.1 (by decide +kernel)
  have tom := both low high found _ fits [255, 255]
  have david := both low high found _ fits' [255]
  refine ⟨low, high, found, fits, fits', tom.1.2 ?_, tom.2.2 ?_, ?_, missing.2 rfl,
    none (missing.2 rfl) _ (by decide)⟩
  · rintro _ ⟨rfl⟩
    exact .inl (by decide +kernel)
  · rintro _ ⟨rfl⟩
    exact .inr (by decide +kernel)
  · rw [← Bool.not_eq_true, david.1]
    intro admits
    rcases admits _ rfl with more | ⟨_, inclusive⟩
    · exact absurd more (by decide +kernel)
    · cases inclusive

end IndexRange

end Interleave
