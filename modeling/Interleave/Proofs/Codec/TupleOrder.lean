import Interleave.Proofs.Codec.KeyForms
import Interleave.Proofs.Codec.ValueOrder

/-!
The order of tuples in keys, set against numbers and against the order that predicates test. Main
statement: forms of tuples of any lengths go as the tuples do; floats go by the numbers that their fields
stand for; and two values of one type go as they compare, only that keys tell the two zeros apart.
-/

namespace Interleave

namespace Binary64

def zero : Binary64 := ⟨0⟩

def negativeZero : Binary64 := ⟨0x8000000000000000⟩

/-- The size of a number, counted in the least positive one. An infinity counts as the power of two that
no finite number reaches. -/
def size (x : Binary64) : Nat := x.significand * 2 ^ (x.scale + 1074).toNat

/-- A number, counted in the least positive one. -/
def units (x : Binary64) : Int := if x.negative then -(x.size : Int) else x.size

variable {x y : Binary64}

theorem size_of_small (small : x.magnitude < fractions) : x.size = x.magnitude := by
  rw [size, significand, scale, if_pos small, if_pos small]
  simp

theorem size_of_normal (normal : fractions ≤ x.magnitude) : x.size =
    (fractions + x.magnitude % fractions) * 2 ^ (x.magnitude / fractions - 1) := by
  have exponent : (((x.magnitude / fractions : Nat) : Int) - 1075 + 1074).toNat =
      x.magnitude / fractions - 1 := by omega
  rw [size, significand, scale, if_neg (Nat.not_lt.2 normal), if_neg (Nat.not_lt.2 normal), exponent]

theorem size_congr (same : x.magnitude = y.magnitude) : x.size = y.size := by
  rw [size, size, significand, significand, scale, scale, same]

/-- Exponents decide before fractions, since the significand of a normal number is below its double. -/
theorem size_lt_of_magnitude_lt (less : x.magnitude < y.magnitude) : x.size < y.size := by
  have unit : 0 < fractions := by decide
  rcases Nat.lt_or_ge y.magnitude fractions with small | normal
  · rwa [size_of_small small, size_of_small (less.trans small)]
  rw [size_of_normal normal]
  rcases Nat.lt_or_ge x.magnitude fractions with small' | normal'
  · rw [size_of_small small']
    calc x.magnitude < fractions := small'
      _ ≤ fractions + y.magnitude % fractions := Nat.le_add_right _ _
      _ ≤ _ := Nat.le_mul_of_pos_right _ (Nat.two_pow_pos _)
  rw [size_of_normal normal']
  have first := Nat.div_pos normal' unit
  have splitX := Nat.div_add_mod x.magnitude fractions
  have splitY := Nat.div_add_mod y.magnitude fractions
  have restX := Nat.mod_lt x.magnitude unit
  rcases Nat.lt_or_ge (x.magnitude / fractions) (y.magnitude / fractions) with lower | same
  · calc (fractions + x.magnitude % fractions) * 2 ^ (x.magnitude / fractions - 1)
        < 2 * fractions * 2 ^ (x.magnitude / fractions - 1) :=
          Nat.mul_lt_mul_of_pos_right (by omega) (Nat.two_pow_pos _)
      _ = fractions * 2 ^ (x.magnitude / fractions) := by
          rw [Nat.mul_comm 2, Nat.mul_assoc, ← Nat.pow_succ', Nat.succ_eq_add_one,
            Nat.sub_add_cancel first]
      _ ≤ (fractions + y.magnitude % fractions) * 2 ^ (y.magnitude / fractions - 1) :=
          Nat.mul_le_mul (Nat.le_add_right _ _) (Nat.pow_le_pow_right (by decide) (by omega))
  · have exponents : x.magnitude / fractions = y.magnitude / fractions :=
      Nat.le_antisymm (Nat.div_le_div_right less.le) same
    rw [exponents] at splitX ⊢
    exact Nat.mul_lt_mul_of_pos_right (by omega) (Nat.two_pow_pos _)

theorem size_lt_iff : x.size < y.size ↔ x.magnitude < y.magnitude := by
  constructor
  · intro less
    by_contra notLess
    rcases Nat.lt_or_eq_of_le (Nat.not_lt.1 notLess) with more | same
    · exact Nat.lt_asymm less (size_lt_of_magnitude_lt more)
    · exact Nat.lt_irrefl _ (size_congr same ▸ less)
  · exact size_lt_of_magnitude_lt

theorem size_pos_iff : 0 < x.size ↔ 0 < x.magnitude :=
  @size_lt_iff zero x

theorem units_lt_iff : x.units < y.units ↔ x.rank < y.rank := by
  have forth := @size_lt_iff x y
  have back := @size_lt_iff y x
  have left := @size_pos_iff x
  have right := @size_pos_iff y
  rw [units, units, rank, rank]
  cases x.negative <;> cases y.negative <;> simp <;> omega

/-- Ranks go as the numbers do. -/
theorem compare_rank (x y : Binary64) : compare x.rank y.rank = compare x.units y.units := by
  have forth := @units_lt_iff x y
  have back := @units_lt_iff y x
  rcases Int.lt_trichotomy x.rank y.rank with less | same | more
  · rw [Int.compare_eq_lt.2 less, Int.compare_eq_lt.2 (forth.2 less)]
  · rw [Int.compare_eq_eq.2 same, Int.compare_eq_eq.2 (by omega)]
  · rw [Int.compare_eq_gt.2 more, Int.compare_eq_gt.2 (back.2 more)]

theorem eq_zero_of_rank (ranks : x.rank = 0) :
    x = if x.negative then negativeZero else zero := by
  have weight : signWeight = 9223372036854775808 := rfl
  have bits := x.bits.toNat_lt
  have none : x.magnitude = 0 := by rw [← natAbs_rank, ranks]; rfl
  rw [magnitude, weight] at none
  cases sign : x.negative with
  | true =>
    have half : signWeight ≤ x.bits.toNat := of_decide_eq_true sign
    exact congrArg Binary64.mk (UInt64.toNat_inj.1 (show x.bits.toNat = 9223372036854775808 by omega))
  | false =>
    have half : ¬ signWeight ≤ x.bits.toNat := of_decide_eq_false sign
    exact congrArg Binary64.mk (UInt64.toNat_inj.1 (show x.bits.toNat = 0 by omega))

/-- Different floats of one rank are the two zeros. -/
theorem zeros_of_rank (ranks : x.rank = y.rank) (signs : x.negative ≠ y.negative) :
    x = negativeZero ∧ y = zero ∨ x = zero ∧ y = negativeZero := by
  have none : x.rank = 0 := by
    by_contra nonzero
    exact signs (congrArg negative (eq_of_rank ranks nonzero))
  have first := eq_zero_of_rank none
  have second := eq_zero_of_rank (ranks ▸ none)
  cases sign : x.negative <;> cases sign' : y.negative <;> rw [sign] at first <;> rw [sign'] at second
  · exact absurd (sign.trans sign'.symm) signs
  · exact .inr ⟨first, second⟩
  · exact .inl ⟨first, second⟩
  · exact absurd (sign.trans sign'.symm) signs

/-- Numbers in keys go as they compare, unless they are the two zeros. -/
theorem keyOrder_eq_compare_iff (number : x.isNaN = false) (number' : y.isNaN = false) :
    x.keyOrder y = compare x.rank y.rank ↔
      ¬ (x = negativeZero ∧ y = zero ∨ x = zero ∧ y = negativeZero) := by
  have order : x.keyOrder y =
      (compare x.rank y.rank).then (compare y.negative.toNat x.negative.toNat) := by
    simp [keyOrder, number, number']
  rw [order]
  constructor
  · rintro same (⟨rfl, rfl⟩ | ⟨rfl, rfl⟩) <;> revert same <;> decide
  · intro others
    by_cases ranks : x.rank = y.rank
    · have signs : x.negative = y.negative := by
        by_contra apart
        exact others (zeros_of_rank ranks apart)
      rw [signs, Nat.compare_eq_eq.2 rfl, Ordering.then_eq]
    · rcases Int.lt_or_gt_of_ne ranks with less | more
      · rw [Int.compare_eq_lt.2 less]
        rfl
      · rw [Int.compare_eq_gt.2 more]
        rfl

end Binary64

namespace Value

/-- Whether two values are the two zeros. -/
def AreZeros (v w : Value) : Prop :=
  v = .float .negativeZero ∧ w = .float .zero ∨ v = .float .zero ∧ w = .float .negativeZero

theorem compare?_eq_keyOrder_iff {v w : Value} (type : v.typeName = w.typeName)
    (number : v.isNaN = false) (number' : w.isNaN = false) :
    v.compare? w = some (v.keyOrder w) ↔ ¬ v.AreZeros w := by
  cases v <;> cases w
  case float.float x y =>
    have numeric : (float x).compare? (float y) = some (compare x.rank y.rank) := by
      rw [isNaN] at number number'
      simp [compare?, Binary64.compare?, number, number']
    rw [numeric, Option.some.injEq, eq_comm, keyOrder,
      Binary64.keyOrder_eq_compare_iff number number', AreZeros]
    simp only [float.injEq]
  all_goals first
    | exact iff_of_true rfl (by simp [AreZeros])
    | simp [typeName] at type

end Value

namespace Codec.Sortable

/-- Forms written one after another go as the tuples do, column by column, and one tuple that begins
another comes before it. Floats go by the numbers that they stand for, with `-0.0` just below `0.0`.
Values of one type go as they compare, unless they are the two zeros. -/
theorem tuples_keep_order (vs ws : List Value) :
    Bytes.order (encodeAll vs) (encodeAll ws) = List.compareLex Value.keyOrder vs ws ∧
      (∀ x y : Binary64, x.isNaN = false → y.isNaN = false → x.keyOrder y =
        (compare x.units y.units).then (compare y.negative.toNat x.negative.toNat)) ∧
      (∀ v w : Value, v.typeName = w.typeName → v.isNaN = false → w.isNaN = false →
        (v.compare? w = some (v.keyOrder w) ↔ ¬ v.AreZeros w)) ∧
      Value.compare? (.float .negativeZero) (.float .zero) = some .eq ∧
      Value.keyOrder (.float .negativeZero) (.float .zero) = .lt := by
  refine ⟨order_encodeAll vs ws, fun x y number number' => ?_,
    fun v w => Value.compare?_eq_keyOrder_iff, by decide, by decide⟩
  rw [← Binary64.compare_rank, Binary64.keyOrder]
  simp [number, number']

/-- A name that goes on with a zero byte comes after the name, whatever stands in the second column; the
greatest finite number comes before infinity. -/
theorem tuples_keep_order_names :
    Bytes.order (encodeAll [.text "a", .bytes [255]]) (encodeAll [.text "a\x00", .null]) =
        List.compareLex Value.keyOrder [.text "a", .bytes [255]] [.text "a\x00", .null] ∧
      Bytes.order (encodeAll [.text "a", .bytes [255]]) (encodeAll [.text "a\x00", .null]) = .lt ∧
      (Binary64.isNaN ⟨0x7fefffffffffffff⟩ = false ∧ Binary64.isNaN ⟨0x7ff0000000000000⟩ = false ∧
        Binary64.keyOrder ⟨0x7fefffffffffffff⟩ ⟨0x7ff0000000000000⟩ =
          (compare (Binary64.units ⟨0x7fefffffffffffff⟩) (Binary64.units ⟨0x7ff0000000000000⟩)).then
            (compare (Binary64.negative ⟨0x7ff0000000000000⟩).toNat
              (Binary64.negative ⟨0x7fefffffffffffff⟩).toNat)) ∧
      (Value.typeName (.float .zero) = Value.typeName (.float .negativeZero) ∧
        Value.isNaN (.float .zero) = false ∧ Value.isNaN (.float .negativeZero) = false ∧
        (Value.compare? (.float .zero) (.float .negativeZero) =
            some (Value.keyOrder (.float .zero) (.float .negativeZero)) ↔
          ¬ Value.AreZeros (.float .zero) (.float .negativeZero))) := by
  have tuples := tuples_keep_order [.text "a", .bytes [255]] [.text "a\x00", .null]
  refine ⟨tuples.1, by decide +kernel, ⟨by decide, by decide, ?_⟩, rfl, by decide, by decide, ?_⟩
  · exact tuples.2.1 _ _ (by decide) (by decide)
  · exact tuples.2.2.1 _ _ rfl (by decide) (by decide)

end Codec.Sortable

end Interleave
