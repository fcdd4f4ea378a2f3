import Mathlib.Data.List.Basic
import Interleave.Codec.Sortable

/-!
Reading back the order-keeping form of values. Every form reads back as its value, a NaN as the one
NaN that keys know, and whatever follows the form is left over. So no form begins another, and values
with one form differ at most in the bits of a NaN. Main statement: forms written one after another read
back one by one, each taking up its own bytes.
-/

namespace Interleave

/-- The value as keys know it: every NaN is the same one. -/
def Value.canonical : Value → Value
  | .float x => .float (if x.isNaN then .nan else x)
  | v => v

namespace Codec.Sortable

/-- One value from the front, with the number of bytes that it takes up. -/
def readPrefix (input : Bytes) : Except EncodingFault (Value × Nat) :=
  (read input).map fun (v, rest) => (v, input.length - rest.length)

/-- Reads value after value, each where the one before ends. -/
def readPrefixes : Nat → Bytes → Except EncodingFault (List (Value × Nat) × Bytes)
  | 0, input => .ok ([], input)
  | count + 1, input =>
    match readPrefix input with
    | .error fault => .error fault
    | .ok (v, used) =>
      (readPrefixes count (input.drop used)).map fun (fields, rest) => ((v, used) :: fields, rest)

theorem intWord_lt (n : Int64) : intWord n < UInt64.size := by
  have low := n.le_toInt
  have high := n.toInt_lt
  have least : Int64.minValue.toInt = -9223372036854775808 := rfl
  have size : UInt64.size = 18446744073709551616 := rfl
  unfold intWord
  omega

theorem ofIntWord_intWord (n : Int64) : ofIntWord (intWord n) = n := by
  have low := n.le_toInt
  have least : Int64.minValue.toInt = -9223372036854775808 := rfl
  have back : (intWord n : Int) + Int64.minValue.toInt = n.toInt := by
    unfold intWord
    omega
  unfold ofIntWord
  rw [back]
  exact Int64.ofInt_toInt n

theorem floatWord_lt (x : Binary64) : floatWord x < UInt64.size := by
  have size : UInt64.size = 18446744073709551616 := rfl
  have weight : Binary64.signWeight = 9223372036854775808 := rfl
  have bits := x.bits.toNat_lt
  unfold floatWord Binary64.negative
  split
  · omega
  · split
    · omega
    · next positive =>
      simp only [decide_eq_true_eq] at positive
      omega

/-- Both halves of the words are read with the sign that they were written with. The last word stands
for no number, since the greatest positive number is far below the last positive bits. -/
theorem ofFloatWord_floatWord (x : Binary64) :
    ofFloatWord (floatWord x) = if x.isNaN then .nan else x := by
  have size : UInt64.size = 18446744073709551616 := rfl
  have weight : Binary64.signWeight = 9223372036854775808 := rfl
  have infinite : Binary64.infinity = 9218868437227405312 := rfl
  have bits := x.bits.toNat_lt
  by_cases nan : x.isNaN = true
  · simp [floatWord, ofFloatWord, nan]
  · have number : x.bits.toNat % Binary64.signWeight ≤ Binary64.infinity :=
      Nat.le_of_not_lt fun more => nan (decide_eq_true more)
    by_cases sign : x.negative = true
    · have half : Binary64.signWeight ≤ x.bits.toNat := by simpa [Binary64.negative] using sign
      have word : floatWord x = UInt64.size - 1 - x.bits.toNat := by simp [floatWord, nan, sign]
      have notLast : ¬ floatWord x = UInt64.size - 1 := by omega
      have low : floatWord x < Binary64.signWeight := by omega
      have back : UInt64.size - 1 - floatWord x = x.bits.toNat := by omega
      simp only [ofFloatWord, if_neg notLast, if_pos low, back, UInt64.ofNat_toNat, if_neg nan]
    · have half : x.bits.toNat < Binary64.signWeight := by simpa [Binary64.negative] using sign
      have word : floatWord x = x.bits.toNat + Binary64.signWeight := by simp [floatWord, nan, sign]
      rw [Nat.mod_eq_of_lt (weight ▸ half)] at number
      have notLast : ¬ floatWord x = UInt64.size - 1 := by omega
      have high : ¬ floatWord x < Binary64.signWeight := by omega
      have back : floatWord x - Binary64.signWeight = x.bits.toNat := by omega
      simp only [ofFloatWord, if_neg notLast, if_neg high, back, UInt64.ofNat_toNat, if_neg nan]

theorem readWord_bigEndian (w : Nat) (rest : Bytes) (small : w < UInt64.size) :
    readWord (Bytes.bigEndian 8 w ++ rest) = .ok (w, rest) := by
  have width : Bytes.wordCount 8 = UInt64.size := rfl
  simp only [readWord, Bytes.readWord?_bigEndian, width, Nat.mod_eq_of_lt small]

theorem read_encode (v : Value) (rest : Bytes) :
    read (encode v ++ rest) = .ok (v.canonical, rest) := by
  cases v with
  | null => simp [encode, read, Value.canonical]
  | bool b => cases b <;> simp [encode, read, Value.canonical]
  | int n =>
    simp only [encode, List.cons_append, read, Value.canonical]
    rw [readWord_bigEndian _ _ (intWord_lt n)]
    simp [Except.map, ofIntWord_intWord]
  | float x =>
    simp only [encode, List.cons_append, read, Value.canonical]
    rw [readWord_bigEndian _ _ (floatWord_lt x)]
    simp [Except.map, ofFloatWord_floatWord]
  | text s => simp [encode, read, unescape_escape, Text.ofUtf8_utf8, Value.canonical]
  | bytes b => simp [encode, read, unescape_escape, Except.map, Value.canonical]

/-- No form begins another. -/
theorem encode_append_inj {v w : Value} {r s : Bytes} (same : encode v ++ r = encode w ++ s) :
    encode v = encode w ∧ r = s := by
  have reads := read_encode v r
  rw [same, read_encode] at reads
  have rests : s = r := (Prod.mk.inj (Except.ok.inj reads)).2
  subst rests
  exact ⟨List.append_cancel_right same, rfl⟩

theorem encode_canonical (v : Value) : encode v.canonical = encode v := by
  cases v with
  | float x =>
    by_cases nan : x.isNaN = true
    · have word : floatWord .nan = floatWord x := by
        rw [floatWord, if_pos (by decide), floatWord, if_pos nan]
      simp [Value.canonical, nan, encode, word]
    · simp [Value.canonical, nan]
  | _ => rfl

theorem encode_eq_iff {v w : Value} : encode v = encode w ↔ v.canonical = w.canonical := by
  constructor
  · intro same
    have reads := read_encode v []
    rw [same, read_encode] at reads
    exact (Prod.mk.inj (Except.ok.inj reads)).1.symm
  · intro same
    rw [← encode_canonical v, same, encode_canonical]

theorem encode_eq_null_iff {v : Value} : encode v = encode .null ↔ v = .null := by
  rw [encode_eq_iff]
  cases v <;> simp [Value.canonical]

theorem encodeAll_cons (v : Value) (vs : List Value) :
    encodeAll (v :: vs) = encode v ++ encodeAll vs := rfl

/-- Tuples of one length are told apart by their forms, whatever follows. -/
theorem encodeAll_append_inj {vs ws : List Value} {r s : Bytes} (length : vs.length = ws.length)
    (same : encodeAll vs ++ r = encodeAll ws ++ s) : encodeAll vs = encodeAll ws ∧ r = s := by
  induction vs generalizing ws with
  | nil =>
    obtain rfl := List.length_eq_zero_iff.1 length.symm
    exact ⟨rfl, same⟩
  | cons v vs ih =>
    cases ws with
    | nil => simp at length
    | cons w ws =>
      simp only [encodeAll_cons, List.append_assoc] at same ⊢
      have ⟨heads, tails⟩ := encode_append_inj same
      have ⟨forms, rests⟩ := ih (by simpa using length) tails
      exact ⟨by rw [heads, forms], rests⟩

theorem encode_prefix_iff (v w : Value) : encode v <+: encode w ↔ encode v = encode w := by
  constructor
  · rintro ⟨rest, same⟩
    rw [← List.append_nil (encode w)] at same
    exact (encode_append_inj same).1
  · intro same
    exact same ▸ List.prefix_rfl

theorem decode_encode (v : Value) : decode (encode v) = .ok v.canonical := by
  have reads := read_encode v []
  rw [List.append_nil] at reads
  simp [decode, reads]

theorem readPrefix_encode (v : Value) (rest : Bytes) :
    readPrefix (encode v ++ rest) = .ok (v.canonical, (encode v).length) := by
  simp [readPrefix, read_encode, Except.map]

theorem readPrefixes_encodeAll (vs : List Value) (rest : Bytes) :
    readPrefixes vs.length (encodeAll vs ++ rest) =
      .ok (vs.map fun v => (v.canonical, (encode v).length), rest) := by
  induction vs with
  | nil => rfl
  | cons v vs ih =>
    rw [encodeAll_cons, List.append_assoc, List.length_cons, readPrefixes, readPrefix_encode]
    simp only [List.drop_left, ih]
    rfl

theorem readAll_encodeAll (vs : List Value) (rest : Bytes) :
    readAll vs.length (encodeAll vs ++ rest) = .ok (vs.map Value.canonical, rest) := by
  induction vs with
  | nil => rfl
  | cons v vs ih =>
    rw [encodeAll_cons, List.append_assoc, List.length_cons, readAll, read_encode]
    simp only [ih]
    rfl

/-- Forms mark their own ends: written one after another, with anything behind them, they read back one by
one, each taking up its own length. -/
theorem encodeAll_reads_back (vs : List Value) (rest : Bytes) :
    readPrefixes vs.length (encodeAll vs ++ rest) =
        .ok (vs.map fun v => (v.canonical, (encode v).length), rest) ∧
      readAll vs.length (encodeAll vs ++ rest) = .ok (vs.map Value.canonical, rest) ∧
      (∀ v w : Value, encode v <+: encode w ↔ encode v = encode w) ∧
      ∀ v : Value, decode (encode v) = .ok v.canonical :=
  ⟨readPrefixes_encodeAll vs rest, readAll_encodeAll vs rest, encode_prefix_iff, decode_encode⟩

end Codec.Sortable

end Interleave
