import Mathlib.Algebra.Order.Ring.Int
import Interleave.Value

/-!
Whole numbers as floats. A whole number is a float when its significant bits fit a significand, and
then the nearest float is the number itself. Main statement: a float stands for a whole number exactly
when it has the rank of the float nearest to the number and the number fits.
-/

namespace Interleave.Binary64

/-- Whether a whole number has at most 53 significant bits. -/
def Fits (n : Int) : Prop := ∃ m e : Nat, m < 2 ^ 53 ∧ n.natAbs = m * 2 ^ e

/-- The exponent of the floats whose last bit counts one. -/
def onesExponent : Nat := 1075

theorem onesExponent_eq : onesExponent = 1075 := rfl

theorem fractions_eq : fractions = 2 ^ 52 := by decide

theorem roundShift_mul (s k : Nat) : roundShift (s * 2 ^ k) k = s := by
  simp [roundShift, Nat.one_shiftLeft, Nat.mul_div_cancel s (Nat.two_pow_pos k)]

section Scaled

variable {n s q : Nat} (low : 2 ^ 52 ≤ s) (high : s < 2 ^ 53)
  (value : n * 2 ^ onesExponent = s * 2 ^ q)
include low high value

theorem ne_zero_of_scaled : n ≠ 0 := by
  rintro rfl
  have positive := Nat.mul_pos (show 0 < s by omega) (Nat.two_pow_pos q)
  omega

theorem log2_of_scaled : n.log2 + 1023 = q := by
  have ones := onesExponent_eq
  have above : 2 ^ (52 + q) < 2 ^ (n.log2 + 1 + onesExponent) := by
    rw [Nat.pow_add 2 52 q, Nat.pow_add 2 _ onesExponent]
    calc 2 ^ 52 * 2 ^ q ≤ s * 2 ^ q := Nat.mul_le_mul_right _ low
      _ = n * 2 ^ onesExponent := value.symm
      _ < 2 ^ (n.log2 + 1) * 2 ^ onesExponent :=
        Nat.mul_lt_mul_of_pos_right Nat.lt_log2_self (Nat.two_pow_pos _)
  have below : 2 ^ (n.log2 + onesExponent) < 2 ^ (53 + q) := by
    rw [Nat.pow_add 2 _ onesExponent, Nat.pow_add 2 53 q]
    calc 2 ^ n.log2 * 2 ^ onesExponent ≤ n * 2 ^ onesExponent :=
          Nat.mul_le_mul_right _ (Nat.log2_self_le (ne_zero_of_scaled low high value))
      _ = s * 2 ^ q := value
      _ < 2 ^ 53 * 2 ^ q := Nat.mul_lt_mul_of_pos_right high (Nat.two_pow_pos q)
  have above := (Nat.pow_lt_pow_iff_right (by decide)).1 above
  have below := (Nat.pow_lt_pow_iff_right (by decide)).1 below
  omega

/-- The number `s * 2 ^ (q - 1075)` has the significand `s` and the exponent `q`, with nothing rounded. -/
theorem magnitudeOfNat_of_scaled : magnitudeOfNat n = q * fractions + (s - fractions) := by
  have ones := onesExponent_eq
  have top := log2_of_scaled low high value
  have significand :
      (if n.log2 ≤ 52 then n <<< (52 - n.log2) else roundShift n (n.log2 - 52)) = s := by
    split
    · next short =>
      refine Nat.eq_of_mul_eq_mul_right (Nat.two_pow_pos q) ?_
      rw [← value, Nat.shiftLeft_eq, Nat.mul_assoc, ← Nat.pow_add,
        show 52 - n.log2 + q = onesExponent by omega]
    · next long =>
      have whole : n = s * 2 ^ (n.log2 - 52) := by
        refine Nat.eq_of_mul_eq_mul_right (Nat.two_pow_pos onesExponent) ?_
        rw [value, Nat.mul_assoc, ← Nat.pow_add, show n.log2 - 52 + onesExponent = q by omega]
      generalize n.log2 - 52 = shift at whole
      rw [whole, roundShift_mul]
  simp only [magnitudeOfNat, if_neg (ne_zero_of_scaled low high value), significand, top]

end Scaled

section Magnitudes

variable {x : Binary64} {n : Nat}

theorem significand_lt : x.significand < 2 ^ 53 := by
  have unit := fractions_eq
  unfold significand
  split
  · omega
  · have := Nat.mod_lt x.magnitude (show 0 < fractions by omega)
    omega

theorem scale_ge : -1074 ≤ x.scale := by
  unfold scale
  split
  · exact Int.le_refl _
  · next normal =>
    have := (Nat.le_div_iff_mul_le (show 0 < fractions by decide)).2
      ((Nat.one_mul _).trans_le (Nat.le_of_not_lt normal))
    omega

/-- Which whole number a magnitude is, with nothing divided. -/
theorem wholeMagnitude?_eq_some_iff : x.wholeMagnitude? = some n ↔
    n * 2 ^ onesExponent = x.significand * 2 ^ (x.scale + onesExponent).toNat := by
  have ones := onesExponent_eq
  have least := @scale_ge x
  unfold wholeMagnitude?
  split
  · next up =>
    rw [Option.some.injEq, Nat.shiftLeft_eq,
      show (x.scale + onesExponent).toNat = x.scale.toNat + onesExponent by omega, Nat.pow_add,
      ← Nat.mul_assoc, Nat.mul_left_inj (Nat.two_pow_pos _).ne', eq_comm]
  · next down =>
    have ends : 2 ^ onesExponent = 2 ^ (-x.scale).toNat * 2 ^ (x.scale + onesExponent).toNat := by
      rw [← Nat.pow_add, show (-x.scale).toNat + (x.scale + onesExponent).toNat = onesExponent by omega]
    rw [ends, ← Nat.mul_assoc, Nat.mul_left_inj (Nat.two_pow_pos _).ne', Nat.one_shiftLeft]
    have unit := Nat.two_pow_pos (-x.scale).toNat
    generalize 2 ^ (-x.scale).toNat = part at unit ⊢
    constructor
    · intro whole
      obtain ⟨even, same⟩ := Option.ite_none_right_eq_some.1 whole
      rw [← Option.some.inj same]
      exact Nat.div_mul_cancel (Nat.dvd_of_mod_eq_zero even)
    · intro whole
      refine Option.ite_none_right_eq_some.2 ⟨?_, ?_⟩
      · rw [← whole, Nat.mul_mod_left]
      · rw [← whole, Nat.mul_div_cancel _ unit]

/-- A whole float is the nearest float to its number. -/
theorem magnitudeOfNat_of_wholeMagnitude? (whole : x.wholeMagnitude? = some n) :
    magnitudeOfNat n = x.magnitude := by
  have ones := onesExponent_eq
  have unit := fractions_eq
  have value := wholeMagnitude?_eq_some_iff.1 whole
  by_cases normal : x.magnitude < fractions
  · -- a number below the least normal one is whole only if it is zero
    have digits : x.significand = x.magnitude := if_pos normal
    have place : x.scale = -1074 := if_pos normal
    rw [digits, place, show (-1074 + (onesExponent : Int)).toNat = 1 by omega] at value
    have zero : n = 0 := by
      by_contra positive
      have large : 2 ^ 54 ≤ 2 ^ onesExponent := Nat.pow_le_pow_right (by decide) (by omega)
      have scaled := Nat.le_mul_of_pos_left (2 ^ onesExponent) (Nat.pos_of_ne_zero positive)
      omega
    subst zero
    have none : x.magnitude = 0 := by omega
    rw [none]
    rfl
  · have digits : x.significand = fractions + x.magnitude % fractions := if_neg normal
    have place : x.scale = (x.magnitude / fractions : Nat) - 1075 := if_neg normal
    have rest := Nat.mod_lt x.magnitude (show 0 < fractions by omega)
    have exponent (q : Nat) : ((q : Int) - 1075 + onesExponent).toNat = q := by omega
    rw [place, exponent] at value
    rw [magnitudeOfNat_of_scaled (by omega) significand_lt value, digits, Nat.add_sub_cancel_left,
      Nat.div_add_mod']

theorem fits_of_wholeMagnitude? (whole : x.wholeMagnitude? = some n) :
    ∃ m e : Nat, m < 2 ^ 53 ∧ n = m * 2 ^ e := by
  have value := wholeMagnitude?_eq_some_iff.1 whole
  have bound := @significand_lt x
  generalize (x.scale + onesExponent).toNat = q at value
  rcases Nat.le_total onesExponent q with up | down
  · obtain ⟨shift, rfl⟩ := Nat.exists_eq_add_of_le up
    rw [Nat.add_comm, Nat.pow_add, ← Nat.mul_assoc] at value
    exact ⟨_, shift, bound, Nat.eq_of_mul_eq_mul_right (Nat.two_pow_pos _) value⟩
  · obtain ⟨shift, split⟩ := Nat.exists_eq_add_of_le down
    rw [split, Nat.add_comm, Nat.pow_add, ← Nat.mul_assoc] at value
    have same := Nat.eq_of_mul_eq_mul_right (Nat.two_pow_pos q) value
    have less : n ≤ n * 2 ^ shift := Nat.le_mul_of_pos_right n (Nat.two_pow_pos shift)
    exact ⟨n, 0, by omega, by simp⟩

theorem fields_of_magnitude {q f : Nat} (normal : 0 < q) (rest : f < fractions)
    (whole : x.magnitude = q * fractions + f) :
    x.significand = fractions + f ∧ x.scale = (q : Int) - 1075 := by
  have large : ¬ x.magnitude < fractions := by
    have := Nat.le_mul_of_pos_left fractions normal
    omega
  rw [significand, scale, if_neg large, if_neg large, whole, Nat.mul_add_mod', Nat.mod_eq_of_lt rest,
    Nat.add_comm (q * fractions), Nat.add_mul_div_right _ _ (Nat.zero_lt_of_lt rest),
    Nat.div_eq_of_lt rest, Nat.zero_add]
  exact ⟨rfl, rfl⟩

/-- Shifting the top bit of a number up to the top of a significand. -/
theorem exists_scaled {m : Nat} (positive : m ≠ 0) (small : m < 2 ^ 53) (e : Nat) :
    ∃ s q, 2 ^ 52 ≤ s ∧ s < 2 ^ 53 ∧ 0 < q ∧ m * 2 ^ e * 2 ^ onesExponent = s * 2 ^ q := by
  have ones := onesExponent_eq
  have bits : m.log2 < 53 := (Nat.log2_lt positive).2 small
  refine ⟨m * 2 ^ (52 - m.log2), e + m.log2 + 1023, ?_, ?_, by omega, ?_⟩
  · have first := Nat.mul_le_mul_right (2 ^ (52 - m.log2)) (Nat.log2_self_le positive)
    rwa [← Nat.pow_add, show m.log2 + (52 - m.log2) = 52 by omega] at first
  · have last := Nat.mul_lt_mul_of_pos_right (@Nat.lt_log2_self m) (Nat.two_pow_pos (52 - m.log2))
    rwa [← Nat.pow_add, show m.log2 + 1 + (52 - m.log2) = 53 by omega] at last
  · rw [Nat.mul_assoc, Nat.mul_assoc, ← Nat.pow_add, ← Nat.pow_add,
      show 52 - m.log2 + (e + m.log2 + 1023) = e + onesExponent by omega]

/-- The nearest float to a number that fits stands for the number. -/
theorem wholeMagnitude?_of_fits {m e : Nat} (small : m < 2 ^ 53) (fits : n = m * 2 ^ e)
    (nearest : x.magnitude = magnitudeOfNat n) : x.wholeMagnitude? = some n := by
  have ones := onesExponent_eq
  have unit := fractions_eq
  rw [wholeMagnitude?_eq_some_iff]
  by_cases zero : m = 0
  · have none : x.magnitude = 0 := by
      rw [nearest, fits, zero, Nat.zero_mul]
      rfl
    have digits : x.significand = x.magnitude := if_pos (by omega)
    rw [digits, none, fits, zero, Nat.zero_mul, Nat.zero_mul, Nat.zero_mul]
  · obtain ⟨s, q, low, high, normal, value⟩ := exists_scaled zero small e
    rw [← fits] at value
    rw [magnitudeOfNat_of_scaled low high value] at nearest
    obtain ⟨digits, place⟩ := fields_of_magnitude normal (by omega) nearest
    rw [digits, place, value, show fractions + (s - fractions) = s by omega,
      show ((q : Int) - 1075 + onesExponent).toNat = q by omega]

end Magnitudes

section Signs

variable {x : Binary64} {n : Int}

theorem magnitudeOfNat_eq_zero_iff {k : Nat} : magnitudeOfNat k = 0 ↔ k = 0 := by
  have unit : 0 < fractions := by decide
  refine ⟨fun none => ?_, fun zero => if_pos zero⟩
  by_contra positive
  rw [magnitudeOfNat, if_neg positive] at none
  exact (Nat.mul_pos (show 0 < k.log2 + 1023 by omega) unit).ne' (Nat.add_eq_zero_iff.1 none).1

/-- The floats nearest to the integers that fit are finite. -/
theorem magnitudeOfNat_lt_infinity (fits : Fits n) (small : n.natAbs ≤ 2 ^ 63) :
    magnitudeOfNat n.natAbs < infinity := by
  obtain ⟨m, e, short, parts⟩ := fits
  by_cases zero : n.natAbs = 0
  · rw [magnitudeOfNat_eq_zero_iff.2 zero]
    decide
  have unit := fractions_eq
  have nonzero : m ≠ 0 := by
    rintro rfl
    exact zero (parts.trans (Nat.zero_mul _))
  obtain ⟨s, q, low, high, -, value⟩ := exists_scaled nonzero short e
  rw [← parts] at value
  have top := log2_of_scaled low high value
  have bits : n.natAbs.log2 < 64 := (Nat.log2_lt zero).2 (by omega)
  have exponents := Nat.mul_le_mul_right fractions (show q ≤ 1086 by omega)
  rw [magnitudeOfNat_of_scaled low high value, infinity]
  omega

/-- The float nearest to an integer that fits has the sign of the integer. -/
theorem fields_ofInt (fits : Fits n) (small : n.natAbs ≤ 2 ^ 63) :
    (ofInt n).magnitude = magnitudeOfNat n.natAbs ∧ (ofInt n).negative = decide (n < 0) := by
  have weight : signWeight = 9223372036854775808 := rfl
  have infinite : infinity = 9218868437227405312 := rfl
  have bound := magnitudeOfNat_lt_infinity fits small
  have bits : (ofInt n).bits.toNat =
      (if n < 0 then signWeight else 0) + magnitudeOfNat n.natAbs := by
    refine UInt64.toNat_ofNat_of_lt ?_
    have size : UInt64.size = 18446744073709551616 := rfl
    split <;> omega
  rw [magnitude, negative, bits, decide_eq_decide]
  generalize magnitudeOfNat n.natAbs = m at bound ⊢
  by_cases below : n < 0
  · rw [if_pos below, Nat.add_mod_left, Nat.mod_eq_of_lt (by omega)]
    exact ⟨rfl, iff_of_true (Nat.le_add_right _ _) below⟩
  · rw [if_neg below, Nat.zero_add, Nat.mod_eq_of_lt (by omega)]
    exact ⟨rfl, iff_of_false (by omega) below⟩

theorem natAbs_rank : x.rank.natAbs = x.magnitude := by
  unfold rank
  split <;> omega

theorem compare?_eq_eq_iff {y : Binary64} :
    x.compare? y = some .eq ↔ x.isNaN = false ∧ y.isNaN = false ∧ x.rank = y.rank := by
  rw [← numericEq_iff, numericEq, beq_iff_eq]

theorem whole?_eq_some_iff : x.whole? = some n ↔
    x.isFinite = true ∧ x.wholeMagnitude? = some n.natAbs ∧
      (if x.negative then n ≤ 0 else 0 ≤ n) := by
  unfold whole?
  rw [Option.ite_none_right_eq_some]
  refine and_congr_right fun _ => ?_
  cases x.negative <;> cases x.wholeMagnitude? <;> simp <;> omega

/-- Of floats with one magnitude, those with the sign of the integer have the rank of the float nearest to
it. -/
theorem rank_ofInt_eq_iff (fits : Fits n) (small : n.natAbs ≤ 2 ^ 63)
    (nearest : magnitudeOfNat n.natAbs = x.magnitude) :
    (ofInt n).rank = x.rank ↔ if x.negative then n ≤ 0 else 0 ≤ n := by
  obtain ⟨same, side⟩ := fields_ofInt fits small
  have zero := @magnitudeOfNat_eq_zero_iff n.natAbs
  rw [rank, rank, side, same, nearest]
  generalize x.magnitude = m at nearest ⊢
  by_cases below : n < 0
  · rw [if_pos (decide_eq_true below)]
    split <;> omega
  · rw [if_neg (by simpa using below)]
    split <;> omega

/-- A float stands for an integer exactly when the integer fits and the two compare equal. -/
theorem whole?_eq_some_iff_compare? (small : n.natAbs ≤ 2 ^ 63) :
    x.whole? = some n ↔ (ofInt n).compare? x = some .eq ∧ Fits n := by
  rw [compare?_eq_eq_iff]
  constructor
  · intro whole
    obtain ⟨finite, magnitude, sign⟩ := whole?_eq_some_iff.1 whole
    have fits : Fits n := fits_of_wholeMagnitude? magnitude
    have nearest := magnitudeOfNat_of_wholeMagnitude? magnitude
    have same := (fields_ofInt fits small).1
    have bound := magnitudeOfNat_lt_infinity fits small
    refine ⟨⟨?_, ?_, (rank_ofInt_eq_iff fits small nearest).2 sign⟩, fits⟩
    · simpa [isNaN, same] using bound.le
    · simpa [isNaN, ← nearest] using bound.le
  · rintro ⟨⟨-, -, ranks⟩, fits⟩
    have nearest : x.magnitude = magnitudeOfNat n.natAbs := by
      rw [← natAbs_rank, ← ranks, natAbs_rank, (fields_ofInt fits small).1]
    have sign := (rank_ofInt_eq_iff fits small nearest.symm).1 ranks
    have bound := magnitudeOfNat_lt_infinity fits small
    obtain ⟨m, e, short, parts⟩ := fits
    refine whole?_eq_some_iff.2 ⟨?_, wholeMagnitude?_of_fits short parts nearest, sign⟩
    simpa [isFinite, nearest] using bound

theorem int64?_eq_some_iff {n : Int64} : x.int64? = some n ↔ x.whole? = some n.toInt := by
  have low := n.minValue_le_toInt
  have high := n.toInt_le
  have greatest : Int64.maxValue.toInt = 2 ^ 63 - 1 := rfl
  unfold int64?
  constructor
  · split
    · next k whole =>
      intro same
      obtain ⟨⟨least, most⟩, same⟩ := Option.ite_none_right_eq_some.1 same
      rw [whole, ← Option.some.inj same, Int64.toInt_ofInt_of_le least (by omega)]
    · intro none
      cases none
  · intro whole
    rw [whole]
    dsimp only
    rw [if_pos ⟨low, high⟩, Int64.ofInt_toInt]

/-- Keys know a float by the integer that fits and compares equal to it. -/
theorem int64?_eq_some_iff_compare? {n : Int64} :
    x.int64? = some n ↔ (ofInt n.toInt).compare? x = some .eq ∧ Fits n.toInt := by
  have low := n.le_toInt
  have high := n.toInt_lt
  rw [int64?_eq_some_iff, whole?_eq_some_iff_compare? (by omega)]

end Signs

end Interleave.Binary64
