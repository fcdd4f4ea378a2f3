import Interleave.Proofs.Catalog.Forest
import Interleave.Proofs.Codec.ValueOrder

/-!
What reads as a value. Main statement: bytes read from the front as a value just if they begin with the
form of a value, or with a float whose bits are those of a NaN that no form holds, and these bytes are
used up and no others.
-/

namespace Interleave

namespace Bytes

/-- Digits above a width are not written. -/
theorem bigEndian_add (width high n : Nat) :
    bigEndian width (high * wordCount width + n) = bigEndian width n := by
  induction width generalizing high with
  | zero => rfl
  | succ width ih =>
    have shift : high * wordCount (width + 1) + n = high * 256 * wordCount width + n := by
      rw [wordCount, Nat.mul_assoc]
    have positive : 0 < wordCount width := wordCount_pos width
    have digit : (high * 256 * wordCount width + n) / wordCount width =
        high * 256 + n / wordCount width := by
      rw [Nat.add_comm, Nat.add_mul_div_right _ _ positive, Nat.add_comm]
    rw [shift, bigEndian, bigEndian, ih, digit]
    congr 1
    apply UInt8.toNat_inj.1
    simp

theorem bigEndian_ofBigEndian (b : Bytes) : bigEndian b.length (ofBigEndian b) = b := by
  induction b with
  | nil => rfl
  | cons b rest ih =>
    have inside := ofBigEndian_lt rest
    have digit : (b.toNat * wordCount rest.length + ofBigEndian rest) / wordCount rest.length =
        b.toNat := by
      rw [Nat.add_comm, Nat.add_mul_div_right _ _ (by omega), Nat.div_eq_of_lt inside, Nat.zero_add]
    rw [List.length_cons, ofBigEndian, bigEndian, digit, bigEndian_add, ih, UInt8.ofNat_toNat]

/-- A word that reads is below its width, and its digits stand at the front. -/
theorem readWord?_eq_some {width w : Nat} {input rest : Bytes}
    (read : readWord? width input = some (w, rest)) :
    w < wordCount width ∧ input = bigEndian width w ++ rest := by
  obtain ⟨long, same⟩ := Option.ite_none_right_eq_some.1 read
  obtain ⟨rfl, rfl⟩ := Prod.mk.inj (Option.some.inj same)
  have length : (input.take width).length = width := by rw [List.length_take, Nat.min_eq_left long]
  have small := ofBigEndian_lt (input.take width)
  have digits := bigEndian_ofBigEndian (input.take width)
  rw [length] at small digits
  exact ⟨small, by rw [digits, List.take_append_drop]⟩

end Bytes

namespace Codec.Sortable

/-- Whether bytes hold a NaN that no form holds: any word but the last one that reads as a NaN. -/
def IsOddNaN (form : Bytes) (x : Binary64) : Prop :=
  x.isNaN = true ∧
    ∃ w, w < UInt64.size - 1 ∧ ofFloatWord w = x ∧ form = 3 :: Bytes.bigEndian 8 w

/-- Whether bytes spell a value: as the form of a value that keys know, or as an odd NaN. -/
def Spells (form : Bytes) (v : Value) : Prop :=
  form = encode v ∧ v.canonical = v ∨ ∃ x, v = .float x ∧ IsOddNaN form x

section Words

variable {w : Nat} (small : w < UInt64.size)
include small

theorem intWord_ofIntWord : intWord (ofIntWord w) = w := by
  have size : UInt64.size = 18446744073709551616 := rfl
  have least : Int64.minValue.toInt = -9223372036854775808 := rfl
  have back : (ofIntWord w).toInt = w + Int64.minValue.toInt :=
    Int64.toInt_ofInt_of_le (by omega) (by omega)
  rw [intWord, back]
  omega

/-- Only a NaN is read from a word that it is not written as. -/
theorem floatWord_ofFloatWord (number : (ofFloatWord w).isNaN = false) :
    floatWord (ofFloatWord w) = w := by
  have size : UInt64.size = 18446744073709551616 := rfl
  have weight : Binary64.signWeight = 9223372036854775808 := rfl
  have notLast : ¬ w = UInt64.size - 1 := by
    rintro rfl
    revert number
    decide
  by_cases low : w < Binary64.signWeight
  · have read : ofFloatWord w = ⟨UInt64.ofNat (UInt64.size - 1 - w)⟩ := by
      rw [ofFloatWord, if_neg notLast, if_pos low]
    have bits : (UInt64.ofNat (UInt64.size - 1 - w)).toNat = UInt64.size - 1 - w :=
      UInt64.toNat_ofNat_of_lt (by omega)
    have sign : (ofFloatWord w).negative = true := by
      rw [read, Binary64.negative, bits]
      exact decide_eq_true (by omega)
    have word : floatWord (ofFloatWord w) = UInt64.size - 1 - (ofFloatWord w).bits.toNat := by
      simp [floatWord, number, sign]
    rw [word, read, bits]
    omega
  · have read : ofFloatWord w = ⟨UInt64.ofNat (w - Binary64.signWeight)⟩ := by
      rw [ofFloatWord, if_neg notLast, if_neg low]
    have bits : (UInt64.ofNat (w - Binary64.signWeight)).toNat = w - Binary64.signWeight :=
      UInt64.toNat_ofNat_of_lt (by omega)
    have sign : (ofFloatWord w).negative = false := by
      rw [read, Binary64.negative, bits]
      exact decide_eq_false (by omega)
    have word : floatWord (ofFloatWord w) = (ofFloatWord w).bits.toNat + Binary64.signWeight := by
      simp [floatWord, number, sign]
    rw [word, read, bits]
    omega

end Words

theorem eq_escape_of_unescape {input data rest : Bytes} (ok : unescape input = .ok (data, rest)) :
    input = escape data ++ rest := by
  fun_induction unescape input generalizing data rest with
  | case1 => cases ok
  | case2 => cases ok
  | case3 b c input other ih =>
    obtain ⟨⟨data', rest'⟩, read, same⟩ := map_eq_ok ok
    obtain ⟨rfl, rfl⟩ := Prod.mk.inj same
    rw [escape, if_neg other, ih read, List.cons_append]
  | case4 b input zero =>
    obtain ⟨rfl, rfl⟩ := Prod.mk.inj (Except.ok.inj ok)
    simp [escape, not_not.1 zero]
  | case5 b input zero _ ih =>
    obtain ⟨⟨data', rest'⟩, read, same⟩ := map_eq_ok ok
    obtain ⟨rfl, rfl⟩ := Prod.mk.inj same
    simp [escape, not_not.1 zero, ih read]
  | case6 => cases ok

theorem readWord_eq_ok {input rest : Bytes} {w : Nat} (ok : readWord input = .ok (w, rest)) :
    w < UInt64.size ∧ input = Bytes.bigEndian 8 w ++ rest := by
  unfold readWord at ok
  split at ok
  · next result found =>
    obtain rfl := Except.ok.inj ok
    exact Bytes.readWord?_eq_some found
  · cases ok

variable {form input rest : Bytes} {v : Value}

theorem Spells.ne_nil (spells : Spells form v) : form ≠ [] := by
  rintro rfl
  rcases spells with ⟨same, _⟩ | ⟨x, rfl, _, w, _, _, same⟩
  · exact encode_ne_nil v same.symm
  · cases same

/-- What spells a value reads as the value, whatever comes after it. -/
theorem Spells.read (spells : Spells form v) (rest : Bytes) :
    Sortable.read (form ++ rest) = .ok (v, rest) := by
  rcases spells with ⟨rfl, canonical⟩ | ⟨x, rfl, _, w, small, word, rfl⟩
  · rw [read_encode, canonical]
  · have reads := readWord_bigEndian w rest (Nat.lt_of_lt_of_le small (Nat.sub_le _ _))
    simp [Sortable.read, reads, Except.map, word]

/-- A word that reads as a number is the number's, the last one is that of every NaN, and all others
stand for odd NaNs. -/
theorem spells_float {w : Nat} (small : w < UInt64.size) :
    Spells (3 :: Bytes.bigEndian 8 w) (.float (ofFloatWord w)) := by
  cases number : (ofFloatWord w).isNaN with
  | false =>
    refine .inl ⟨?_, ?_⟩
    · rw [encode, floatWord_ofFloatWord small number]
    · simp [Value.canonical, number]
  | true =>
    by_cases last : w = UInt64.size - 1
    · subst last
      exact .inl (by decide)
    · exact .inr ⟨_, rfl, number, w, by omega, rfl, rfl⟩

/-- Odd NaNs are no value's form. -/
theorem IsOddNaN.ne_encode {x : Binary64} (odd : IsOddNaN form x) (v : Value) : form ≠ encode v := by
  rintro rfl
  obtain ⟨nan, w, small, word, same⟩ := odd
  cases v with
  | float y =>
    have reads := readWord_bigEndian (floatWord y) [] (floatWord_lt y)
    rw [(List.cons.inj same).2, readWord_bigEndian w [] (Nat.lt_of_lt_of_le small (Nat.sub_le _ _))]
      at reads
    obtain rfl := (Prod.mk.inj (Except.ok.inj reads)).1
    rw [ofFloatWord_floatWord] at word
    cases number : y.isNaN with
    | true => simp [floatWord, number] at small
    | false =>
      rw [number, if_neg Bool.false_ne_true] at word
      rw [word, nan] at number
      cases number
  | _ => cases same

theorem spells_of_readBool (ok : read (1 :: input) = .ok (v, rest)) :
    ∃ form, 1 :: input = form ++ rest ∧ Spells form v := by
  rcases input with _ | ⟨b, input⟩
  · cases ok
  by_cases no : b = 0
  · subst no
    obtain ⟨rfl, rfl⟩ := Prod.mk.inj (Except.ok.inj ok)
    exact ⟨[1, 0], rfl, .inl ⟨rfl, rfl⟩⟩
  by_cases yes : b = 1
  · subst yes
    obtain ⟨rfl, rfl⟩ := Prod.mk.inj (Except.ok.inj ok)
    exact ⟨[1, 1], rfl, .inl ⟨rfl, rfl⟩⟩
  · simp [read, no, yes] at ok

theorem spells_of_readText (ok : read (4 :: input) = .ok (v, rest)) :
    ∃ form, 4 :: input = form ++ rest ∧ Spells form v := by
  cases escaped : unescape input with
  | error fault => simp [read, escaped] at ok
  | ok result =>
    obtain ⟨data, rest'⟩ := result
    cases decoded : Text.ofUtf8 data with
    | error fault => simp [read, escaped, decoded] at ok
    | ok s =>
      have whole : read (4 :: input) = .ok (.text s, rest') := by simp [read, escaped, decoded]
      obtain ⟨rfl, rfl⟩ := Prod.mk.inj (Except.ok.inj (whole.symm.trans ok))
      refine ⟨encode (.text s), ?_, .inl ⟨rfl, rfl⟩⟩
      rw [eq_escape_of_unescape escaped, encode, Text.utf8_of_ofUtf8 decoded, List.cons_append]

/-- One case a tag: what follows a tag is read as the payload is. -/
theorem spells_of_read (ok : read input = .ok (v, rest)) :
    ∃ form, input = form ++ rest ∧ Spells form v := by
  rcases input with _ | ⟨tag, input⟩
  · cases ok
  by_cases null : tag = 0
  · subst null
    obtain ⟨rfl, rfl⟩ := Prod.mk.inj (Except.ok.inj ok)
    exact ⟨[0], rfl, .inl ⟨rfl, rfl⟩⟩
  by_cases bool : tag = 1
  · subst bool
    exact spells_of_readBool ok
  by_cases int : tag = 2
  · subst int
    obtain ⟨⟨w, _⟩, found, same⟩ := map_eq_ok (show (readWord input).map _ = _ from ok)
    obtain ⟨rfl, rfl⟩ := Prod.mk.inj same
    obtain ⟨small, rfl⟩ := readWord_eq_ok found
    refine ⟨2 :: Bytes.bigEndian 8 w, rfl, .inl ⟨?_, rfl⟩⟩
    rw [encode, intWord_ofIntWord small]
  by_cases float : tag = 3
  · subst float
    obtain ⟨⟨w, _⟩, found, same⟩ := map_eq_ok (show (readWord input).map _ = _ from ok)
    obtain ⟨rfl, rfl⟩ := Prod.mk.inj same
    obtain ⟨small, rfl⟩ := readWord_eq_ok found
    exact ⟨3 :: Bytes.bigEndian 8 w, rfl, spells_float small⟩
  by_cases text : tag = 4
  · subst text
    exact spells_of_readText ok
  by_cases bytes : tag = 5
  · subst bytes
    obtain ⟨⟨data, _⟩, found, same⟩ := map_eq_ok (show (unescape input).map _ = _ from ok)
    obtain ⟨rfl, rfl⟩ := Prod.mk.inj same
    refine ⟨encode (.bytes data), ?_, .inl ⟨rfl, rfl⟩⟩
    rw [eq_escape_of_unescape found, encode, List.cons_append]
  · simp [read, null, bool, int, float, text, bytes] at ok

/-- What reads from the front is what spells a value. -/
theorem read_eq_ok_iff : read input = .ok (v, rest) ↔
    ∃ form, input = form ++ rest ∧ Spells form v := by
  constructor
  · exact spells_of_read
  · rintro ⟨form, rfl, spells⟩
    exact spells.read rest

/-- A value that reads takes up at least one byte and no more than there are, and these spell it. -/
theorem readPrefix_eq_ok_iff {used : Nat} : readPrefix input = .ok (v, used) ↔
    1 ≤ used ∧ used ≤ input.length ∧ Spells (input.take used) v := by
  constructor
  · intro ok
    obtain ⟨⟨_, rest⟩, read, same⟩ := map_eq_ok ok
    obtain ⟨rfl, rfl⟩ := Prod.mk.inj same
    obtain ⟨form, rfl, spells⟩ := read_eq_ok_iff.1 read
    have used : (form ++ rest).length - rest.length = form.length := by simp
    rw [used, List.take_left, List.length_append]
    exact ⟨List.length_pos_iff.2 spells.ne_nil, Nat.le_add_right _ _, spells⟩
  · rintro ⟨_, inside, spells⟩
    have reads := spells.read (input.drop used)
    rw [List.take_append_drop] at reads
    have rest : input.length - (input.drop used).length = used := by
      rw [List.length_drop, Nat.sub_sub_self inside]
    simp only [readPrefix, reads, Except.map, rest]

end Codec.Sortable

end Interleave
