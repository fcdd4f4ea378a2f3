import Interleave.Proofs.Codec.Sortable

/-!
The order of values in keys. Values go by type and, within a type, by what they hold. Main statements:
forms written one after another go by their values, column by column, and only then by what follows
them, so a shorter text never overtakes whatever stands behind it; a tuple that ends first comes before
those that go on from it.
-/

namespace Interleave

/-- Numbers in keys: by number, with `-0.0` just below `0.0`, and every NaN last. -/
def Binary64.keyOrder (x y : Binary64) : Ordering :=
  if x.isNaN then if y.isNaN then .eq else .gt
  else if y.isNaN then .lt
  else (compare x.rank y.rank).then (compare y.negative.toNat x.negative.toNat)

namespace Value

def typeRank : Value → Nat
  | null => 0
  | bool _ => 1
  | int _ => 2
  | float _ => 3
  | text _ => 4
  | bytes _ => 5

/-- Values in keys: by type, then false before true, integers and floats by number, texts and byte
strings by their bytes. -/
def keyOrder : Value → Value → Ordering
  | bool a, bool b => compare a.toNat b.toNat
  | int m, int n => compare m.toInt n.toInt
  | float x, float y => x.keyOrder y
  | text s, text t => Text.order s t
  | bytes a, bytes b => Bytes.order a b
  | v, w => compare v.typeRank w.typeRank

end Value

namespace Bytes

theorem order_cons (a b : UInt8) (as bs : Bytes) :
    order (a :: as) (b :: bs) = (compare a.toNat b.toNat).then (order as bs) := by
  rw [order, Nat.compare_eq_ite_lt]
  simp only [UInt8.lt_iff_toNat_lt]
  split
  · rfl
  · split <;> rfl

/-- Strings of one length decide before what follows them. -/
theorem order_append {a b : Bytes} (length : a.length = b.length) (r s : Bytes) :
    order (a ++ r) (b ++ s) = (order a b).then (order r s) := by
  induction a generalizing b with
  | nil =>
    obtain rfl := List.length_eq_zero_iff.1 length.symm
    rfl
  | cons x a ih =>
    cases b with
    | nil => cases length
    | cons y b =>
      rw [List.cons_append, List.cons_append, order_cons, order_cons, ih (Nat.succ.inj length),
        Ordering.then_assoc]

/-- Of two numbers with their last digits apart the leading digits decide first. -/
theorem compare_digits {unit a b x y : Nat} (hx : x < unit) (hy : y < unit) :
    compare (x + unit * a) (y + unit * b) = (compare a b).then (compare x y) := by
  rcases Nat.lt_trichotomy a b with less | rfl | more
  · have scaled := Nat.mul_le_mul_left unit (Nat.succ_le_of_lt less)
    rw [Nat.mul_succ] at scaled
    rw [Nat.compare_eq_lt.2 less]
    exact Nat.compare_eq_lt.2 (by omega)
  · rw [Nat.compare_eq_eq.2 rfl, Nat.compare_eq_ite_lt, Nat.compare_eq_ite_lt]
    simp only [Nat.add_lt_add_iff_right, Ordering.then]
  · have scaled := Nat.mul_le_mul_left unit (Nat.succ_le_of_lt more)
    rw [Nat.mul_succ] at scaled
    rw [Nat.compare_eq_gt.2 more]
    exact Nat.compare_eq_gt.2 (by omega)

theorem wordCount_pos (width : Nat) : 0 < wordCount width :=
  Nat.zero_lt_of_lt (length_bigEndian width 0 ▸ ofBigEndian_lt (bigEndian width 0))

theorem order_bigEndian (width m n : Nat) :
    order (bigEndian width m) (bigEndian width n) =
      compare (m % wordCount width) (n % wordCount width) := by
  induction width with
  | zero => simp [bigEndian, order, wordCount, Nat.mod_one]
  | succ width ih =>
    have unit := wordCount_pos width
    have digit (k : Nat) :
        (UInt8.ofNat (k / wordCount width)).toNat = k / wordCount width % 256 := by
      simp [UInt8.toNat_ofNat']
    have digits (k : Nat) : k % wordCount (width + 1) =
        k % wordCount width + wordCount width * (k / wordCount width % 256) := by
      rw [wordCount, Nat.mul_comm 256, Nat.mod_mul]
    rw [bigEndian, bigEndian, order_cons, ih, digit, digit, digits, digits,
      compare_digits (Nat.mod_lt _ unit) (Nat.mod_lt _ unit)]

end Bytes

namespace Codec.Sortable

theorem compare_intWord (m n : Int64) :
    compare (intWord m) (intWord n) = compare m.toInt n.toInt := by
  have word (k : Int64) : (intWord k : Int) = k.toInt + 9223372036854775808 := by
    have low := k.le_toInt
    have least : Int64.minValue.toInt = -9223372036854775808 := rfl
    unfold intWord
    omega
  have first := word m
  have second := word n
  rcases Int.lt_trichotomy m.toInt n.toInt with less | same | more
  · rw [Int.compare_eq_lt.2 less]
    exact Nat.compare_eq_lt.2 (by omega)
  · rw [Int.compare_eq_eq.2 same]
    exact Nat.compare_eq_eq.2 (by omega)
  · rw [Int.compare_eq_gt.2 more]
    exact Nat.compare_eq_gt.2 (by omega)

section Numbers

variable {x y : Binary64}

theorem floatWord_of_isNaN (nan : x.isNaN = true) : floatWord x = 18446744073709551615 := by
  simp [floatWord, nan, UInt64.size]

/-- Negative numbers fill the words below the middle and the others those from it on, each by rank. -/
theorem floatWord_of_number (number : x.isNaN = false) :
    (x.negative = true ∧ x.rank ≤ 0 ∧ (floatWord x : Int) = 9223372036854775807 + x.rank) ∨
    (x.negative = false ∧ 0 ≤ x.rank ∧ x.rank ≤ 9218868437227405312 ∧
      (floatWord x : Int) = 9223372036854775808 + x.rank) := by
  have bits := x.bits.toNat_lt
  have bound : x.bits.toNat % 9223372036854775808 ≤ 9218868437227405312 :=
    Nat.le_of_not_lt (of_decide_eq_false number)
  cases sign : x.negative with
  | true =>
    have half : 9223372036854775808 ≤ x.bits.toNat := of_decide_eq_true sign
    have word : floatWord x = 18446744073709551615 - x.bits.toNat := by
      simp [floatWord, number, sign, UInt64.size]
    have rank : x.rank = -((x.bits.toNat % 9223372036854775808 : Nat) : Int) := by
      simp [Binary64.rank, sign, Binary64.magnitude, Binary64.signWeight]
    refine .inl ⟨rfl, ?_⟩
    omega
  | false =>
    have half : ¬ 9223372036854775808 ≤ x.bits.toNat := of_decide_eq_false sign
    have word : floatWord x = x.bits.toNat + 9223372036854775808 := by
      simp [floatWord, number, sign, Binary64.signWeight]
    have rank : x.rank = ((x.bits.toNat % 9223372036854775808 : Nat) : Int) := by
      simp [Binary64.rank, sign, Binary64.magnitude, Binary64.signWeight]
    refine .inr ⟨rfl, ?_⟩
    omega

/-- The two zeros have one rank and words of their own. -/
theorem compare_floatWord_of_numbers (number : x.isNaN = false) (number' : y.isNaN = false) :
    compare (floatWord x) (floatWord y) =
      (compare x.rank y.rank).then (compare y.negative.toNat x.negative.toNat) := by
  have first := floatWord_of_number number
  have second := floatWord_of_number number'
  rcases Int.lt_trichotomy x.rank y.rank with less | same | more
  · rw [Int.compare_eq_lt.2 less]
    exact Nat.compare_eq_lt.2 (by omega)
  · rw [Int.compare_eq_eq.2 same]
    rcases first with ⟨sign, first⟩ | ⟨sign, first⟩ <;>
      rcases second with ⟨sign', second⟩ | ⟨sign', second⟩ <;> rw [sign, sign']
    · exact Nat.compare_eq_eq.2 (by omega)
    · exact Nat.compare_eq_lt.2 (by omega)
    · exact Nat.compare_eq_gt.2 (by omega)
    · exact Nat.compare_eq_eq.2 (by omega)
  · rw [Int.compare_eq_gt.2 more]
    exact Nat.compare_eq_gt.2 (by omega)

theorem compare_floatWord (x y : Binary64) :
    compare (floatWord x) (floatWord y) = x.keyOrder y := by
  unfold Binary64.keyOrder
  cases number : x.isNaN <;> cases number' : y.isNaN
  · exact compare_floatWord_of_numbers number number'
  · have first := floatWord_of_number number
    rw [floatWord_of_isNaN number']
    exact Nat.compare_eq_lt.2 (by omega)
  · have second := floatWord_of_number number'
    rw [floatWord_of_isNaN number]
    exact Nat.compare_eq_gt.2 (by omega)
  · rw [floatWord_of_isNaN number, floatWord_of_isNaN number']
    rfl

end Numbers

/-- The escape of a zero byte stays below every other byte and above the end. -/
theorem order_escape_append (a b r s : Bytes) :
    Bytes.order (escape a ++ r) (escape b ++ s) = (Bytes.order a b).then (Bytes.order r s) := by
  have zero_lt {x : UInt8} (positive : x ≠ 0) : (0 : UInt8) < x := by grind
  induction a generalizing b with
  | nil =>
    cases b with
    | nil => simp [escape, Bytes.order]
    | cons y b =>
      by_cases zero : y = 0
      · simp [escape, zero, Bytes.order]
      · simp [escape, zero, Bytes.order, zero_lt zero]
  | cons x a ih =>
    cases b with
    | nil =>
      by_cases zero : x = 0
      · simp [escape, zero, Bytes.order]
      · simp [escape, zero, Bytes.order, zero_lt zero]
    | cons y b =>
      have rest := ih b
      by_cases zero : x = 0 <;> by_cases zero' : y = 0
      · simp [escape, zero, zero', Bytes.order_cons, rest]
      · simp [escape, zero, zero', Bytes.order, zero_lt zero']
      · simp [escape, zero, zero', Bytes.order, zero_lt zero]
      · simp [escape, zero, zero', Bytes.order_cons, rest, Ordering.then_assoc]

theorem order_word {m n : Nat} (hm : m < UInt64.size) (hn : n < UInt64.size) (r s : Bytes) :
    Bytes.order (Bytes.bigEndian 8 m ++ r) (Bytes.bigEndian 8 n ++ s) =
      (compare m n).then (Bytes.order r s) := by
  have width : Bytes.wordCount 8 = UInt64.size := rfl
  rw [Bytes.order_append (by simp), Bytes.order_bigEndian, width, Nat.mod_eq_of_lt hm,
    Nat.mod_eq_of_lt hn]

/-- Forms go by their values first and then by what follows. -/
theorem order_encode_append (v w : Value) (r s : Bytes) :
    Bytes.order (encode v ++ r) (encode w ++ s) = (v.keyOrder w).then (Bytes.order r s) := by
  cases v <;> cases w
  case bool.bool a b => cases a <;> cases b <;> simp [encode, Bytes.order, Value.keyOrder] <;> rfl
  case int.int m n =>
    simp [encode, Bytes.order_cons, order_word (intWord_lt m) (intWord_lt n), compare_intWord,
      Value.keyOrder]
  case float.float x y =>
    simp [encode, Bytes.order_cons, order_word (floatWord_lt x) (floatWord_lt y), compare_floatWord,
      Value.keyOrder]
  case text.text a b => simp [encode, Bytes.order_cons, order_escape_append, Value.keyOrder, Text.order]
  case bytes.bytes a b => simp [encode, Bytes.order_cons, order_escape_append, Value.keyOrder]
  all_goals simp [encode, Bytes.order_cons, Value.keyOrder, Value.typeRank] <;> rfl

theorem order_encode (v w : Value) : Bytes.order (encode v) (encode w) = v.keyOrder w := by
  have whole := order_encode_append v w [] []
  rwa [List.append_nil, List.append_nil, Bytes.order_self, Ordering.then_eq] at whole

/-- Tuples of one length go column by column, and then by what follows. -/
theorem order_encodeAll_append {vs ws : List Value} (length : vs.length = ws.length) (r s : Bytes) :
    Bytes.order (encodeAll vs ++ r) (encodeAll ws ++ s) =
      (List.compareLex Value.keyOrder vs ws).then (Bytes.order r s) := by
  induction vs generalizing ws with
  | nil =>
    obtain rfl := List.length_eq_zero_iff.1 length.symm
    rfl
  | cons v vs ih =>
    cases ws with
    | nil => cases length
    | cons w ws =>
      rw [encodeAll_cons, encodeAll_cons, List.append_assoc, List.append_assoc, order_encode_append,
        ih (Nat.succ.inj length), List.compareLex_cons_cons, Ordering.then_assoc]

theorem encode_ne_nil (v : Value) : encode v ≠ [] := by
  cases v <;> simp [encode]

/-- Tuples go column by column, and one that ends first comes before those that go on from it. -/
theorem order_encodeAll (vs ws : List Value) :
    Bytes.order (encodeAll vs) (encodeAll ws) = List.compareLex Value.keyOrder vs ws := by
  induction vs generalizing ws with
  | nil =>
    cases ws with
    | nil => rfl
    | cons w ws =>
      obtain ⟨b, form, nonempty⟩ := List.exists_cons_of_ne_nil (encode_ne_nil w)
      rw [encodeAll_cons, nonempty]
      rfl
  | cons v vs ih =>
    cases ws with
    | nil =>
      obtain ⟨b, form, nonempty⟩ := List.exists_cons_of_ne_nil (encode_ne_nil v)
      rw [encodeAll_cons, nonempty]
      rfl
    | cons w ws =>
      rw [encodeAll_cons, encodeAll_cons, order_encode_append, ih, List.compareLex_cons_cons]

end Codec.Sortable

theorem Value.keyOrder_eq_eq_iff {v w : Value} : v.keyOrder w = .eq ↔ v.canonical = w.canonical := by
  rw [← Codec.Sortable.order_encode, Bytes.order_eq_eq_iff, Codec.Sortable.encode_eq_iff]

end Interleave
