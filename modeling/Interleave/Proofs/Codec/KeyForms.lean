import Interleave.Proofs.Codec.Sortable
import Interleave.Proofs.Codec.WholeFloats

/-!
Values that key alike. Main statement: values key alike when they compare equal, but for an integer with
more bits than a float holds: it compares equal to the float nearest to it, and that float keys as
another integer.
-/

namespace Interleave

namespace Binary64

variable {x y : Binary64}

theorem compare?_eq_eq_comm : x.compare? y = some .eq ↔ y.compare? x = some .eq := by
  rw [compare?_eq_eq_iff, compare?_eq_eq_iff, and_left_comm, @eq_comm _ x.rank]

/-- Only the two zeros have one rank. -/
theorem eq_of_rank (ranks : x.rank = y.rank) (nonzero : x.rank ≠ 0) : x = y := by
  have weight : signWeight = 9223372036854775808 := rfl
  have bits := x.bits.toNat_lt
  have bits' := y.bits.toNat_lt
  have magnitudes : x.magnitude = y.magnitude := by rw [← natAbs_rank, ranks, natAbs_rank]
  have signs : x.negative = y.negative := by
    rw [← Int.natAbs_ne_zero, natAbs_rank, magnitudes] at nonzero
    rw [rank, rank, magnitudes] at ranks
    split at ranks <;> split at ranks <;> first | omega | simp_all
  rw [negative, negative, decide_eq_decide, weight] at signs
  rw [magnitude, magnitude, weight] at magnitudes
  have same : x.bits.toNat = y.bits.toNat := by omega
  exact congrArg Binary64.mk (UInt64.toNat_inj.1 same)

/-- A float that stands for an integer compares equal to the floats that stand for the same integer. -/
theorem compare?_eq_eq_iff_of_int64? {n : Int64} (whole : x.int64? = some n) :
    x.compare? y = some .eq ↔ y.int64? = some n := by
  rw [int64?_eq_some_iff_compare?, compare?_eq_eq_iff] at whole
  obtain ⟨⟨number, number', ranks⟩, fits⟩ := whole
  rw [int64?_eq_some_iff_compare?, compare?_eq_eq_iff, compare?_eq_eq_iff, ranks]
  simp [number, number', fits]

/-- Floats that stand for no integer compare equal only to themselves. -/
theorem compare?_eq_eq_iff_of_none (number : x.isNaN = false) (broken : x.int64? = none) :
    x.compare? y = some .eq ↔ x = y := by
  constructor
  · intro same
    obtain ⟨_, _, ranks⟩ := compare?_eq_eq_iff.1 same
    refine eq_of_rank ranks fun zero => ?_
    have whole : x.int64? = some 0 :=
      int64?_eq_some_iff_compare?.2
        ⟨compare?_eq_eq_iff.2 ⟨by decide, number, zero.symm⟩, 0, 0, by decide, rfl⟩
    rw [broken] at whole
    cases whole
  · rintro rfl
    exact compare?_eq_eq_iff.2 ⟨number, number, rfl⟩

end Binary64

namespace Value

def isNaN : Value → Bool
  | float x => x.isNaN
  | _ => false

/-- Whether two values meet without rounding: of an integer and a float, the integer is a float too. -/
def MeetsExactly : Value → Value → Prop
  | int n, float _ => Binary64.Fits n.toInt
  | float _, int n => Binary64.Fits n.toInt
  | _, _ => True

theorem canonical_keyForm {v : Value} (number : v.isNaN = false) : v.keyForm.canonical = v.keyForm := by
  cases v with
  | float x =>
    have same : x.isNaN = false := number
    cases h : x.int64? <;> simp [keyForm, h, canonical, same]
  | _ => rfl

theorem int_eq_keyForm_float_iff {n : Int64} {x : Binary64} :
    int n = (float x).keyForm ↔ x.int64? = some n := by
  cases h : x.int64? <;> simp [keyForm, h, eq_comm]

theorem keyForm_float_eq_iff {x y : Binary64} (number : x.isNaN = false) :
    (float x).keyForm = (float y).keyForm ↔ x.compare? y = some .eq := by
  cases h : x.int64? with
  | some n =>
    rw [Binary64.compare?_eq_eq_iff_of_int64? h, ← int_eq_keyForm_float_iff,
      ← int_eq_keyForm_float_iff.2 h]
  | none =>
    rw [Binary64.compare?_eq_eq_iff_of_none number h]
    constructor
    · intro same
      cases h' : y.int64? with
      | none => simpa [keyForm, h, h'] using same
      | some n => simp [keyForm, h, h'] at same
    · exact congrArg fun x => (float x).keyForm

/-- Values that are not floats compare equal only to themselves. -/
theorem compare?_eq_eq_iff_of_exact {v w : Value} (exact : v.asFloat? = none)
    (exact' : w.asFloat? = none) : v.compare? w = some .eq ↔ v = w := by
  cases v with
  | null => cases w <;> simp [compare?]
  | bool b =>
    cases w with
    | bool b' => cases b <;> cases b' <;> decide
    | _ => simp [compare?]
  | int n => cases w <;> simp_all [compare?, asFloat?, Int64.toInt_inj]
  | float x => cases exact
  | text s => cases w <;> simp [compare?, Text.order, Bytes.order_eq_eq_iff, Text.utf8_inj]
  | bytes b => cases w <;> simp [compare?, Bytes.order_eq_eq_iff]

theorem keyForm_eq_iff_of_float {x : Binary64} {w : Value} (number : x.isNaN = false) :
    (float x).keyForm = w.keyForm ↔ (float x).compare? w = some .eq ∧ (float x).MeetsExactly w := by
  cases w with
  | int n =>
    rw [eq_comm, show (int n).keyForm = int n from rfl, int_eq_keyForm_float_iff,
      Binary64.int64?_eq_some_iff_compare?, Binary64.compare?_eq_eq_comm]
    exact Iff.rfl
  | float y => simp [keyForm_float_eq_iff number, compare?, MeetsExactly]
  | _ => cases h : x.int64? <;> simp [keyForm, h, compare?]

theorem compare?_float_eq_eq_comm {v : Value} {y : Binary64} :
    v.compare? (float y) = some .eq ↔ (float y).compare? v = some .eq := by
  cases v with
  | int n => exact Binary64.compare?_eq_eq_comm
  | float x => exact Binary64.compare?_eq_eq_comm
  | _ => exact Iff.rfl

theorem meetsExactly_comm {v w : Value} : v.MeetsExactly w ↔ w.MeetsExactly v := by
  cases v <;> cases w <;> exact Iff.rfl

theorem meetsExactly_of_exact {v w : Value} (exact : v.asFloat? = none)
    (exact' : w.asFloat? = none) : v.MeetsExactly w := by
  cases v <;> cases w <;> simp_all [MeetsExactly, asFloat?]

theorem keyForm_eq_iff {v w : Value} (number : v.isNaN = false) (number' : w.isNaN = false) :
    v.keyForm = w.keyForm ↔ v.compare? w = some .eq ∧ v.MeetsExactly w := by
  cases v with
  | float x => exact keyForm_eq_iff_of_float number
  | _ =>
    cases w with
    | float y =>
      rw [eq_comm, keyForm_eq_iff_of_float number', compare?_float_eq_eq_comm, meetsExactly_comm]
    | _ =>
      exact (compare?_eq_eq_iff_of_exact rfl rfl).symm.trans
        (and_iff_left (meetsExactly_of_exact rfl rfl)).symm

/-- Values key alike exactly when they compare equal and meet without rounding. -/
theorem encode_keyForm_eq_iff {v w : Value} (number : v.isNaN = false) (number' : w.isNaN = false) :
    Codec.Sortable.encode v.keyForm = Codec.Sortable.encode w.keyForm ↔
      v.compare? w = some .eq ∧ v.MeetsExactly w := by
  rw [Codec.Sortable.encode_eq_iff, canonical_keyForm number, canonical_keyForm number',
    keyForm_eq_iff number number']

end Value

end Interleave
