import Mathlib.Data.List.Basic
import Interleave.Codec.Body

/-!
Reading back stored rows. What is written reads back as exactly the values that were written, and
nothing is left over.
-/

namespace Interleave.Codec.Body

theorem readLength_bigEndian {n : Nat} (rest : Bytes) (small : n < UInt32.size) :
    readLength (Bytes.bigEndian 4 n ++ rest) = .ok (n, rest) := by
  have width : Bytes.wordCount 4 = UInt32.size := rfl
  simp only [readLength, Bytes.readWord?_bigEndian, width, Nat.mod_eq_of_lt small]

theorem readWord_bigEndian (word : UInt64) (rest : Bytes) :
    readWord (Bytes.bigEndian 8 word.toNat ++ rest) = .ok (word.toNat, rest) := by
  have width : Bytes.wordCount 8 = UInt64.size := rfl
  simp only [readWord, Bytes.readWord?_bigEndian, width, Nat.mod_eq_of_lt word.toNat_lt_size]

theorem lengthField_eq_ok {what : String} {n : Nat} {bytes : Bytes}
    (written : lengthField what n = .ok bytes) :
    n < UInt32.size ∧ bytes = Bytes.bigEndian 4 n := by
  unfold lengthField at written
  split at written
  · next small => exact ⟨small, (Except.ok.inj written).symm⟩
  · cases written

theorem readCounted_append (data rest : Bytes) (small : data.length < UInt32.size) :
    readCounted (Bytes.bigEndian 4 data.length ++ (data ++ rest)) = .ok (data, rest) := by
  have room : data.length ≤ (data ++ rest).length := by simp
  simp only [readCounted, readLength_bigEndian _ small, if_pos room, List.take_left, List.drop_left]

theorem readValue_encodeValue {v : Value} {bytes : Bytes} (rest : Bytes)
    (written : encodeValue v = .ok bytes) :
    readValue (bytes ++ rest) = .ok (v, rest) := by
  cases v with
  | null =>
    cases written
    simp [readValue]
  | bool b =>
    cases written
    cases b <;> simp [readValue]
  | int n =>
    cases written
    simp only [List.cons_append, readValue, readWord_bigEndian]
    simp [Except.map]
  | float x =>
    cases written
    simp only [List.cons_append, readValue, readWord_bigEndian]
    simp [Except.map]
  | text s =>
    simp only [encodeValue] at written
    cases field : lengthField "string" (Text.utf8 s).length with
    | error fault => simp [field, Except.map] at written
    | ok count =>
      have ⟨small, digits⟩ := lengthField_eq_ok field
      simp only [field, Except.map, Except.ok.injEq] at written
      subst written digits
      simp only [List.cons_append, List.append_assoc, readValue, readCounted_append _ _ small]
      simp [readText, Text.ofUtf8_utf8, Except.map]
  | bytes b =>
    simp only [encodeValue] at written
    cases field : lengthField "bytes" b.length with
    | error fault => simp [field, Except.map] at written
    | ok count =>
      have ⟨small, digits⟩ := lengthField_eq_ok field
      simp only [field, Except.map, Except.ok.injEq] at written
      subst written digits
      simp only [List.cons_append, List.append_assoc, readValue, readCounted_append _ _ small]
      simp [Except.map]

theorem readValues_encodeValues {vs : List Value} {bytes : Bytes} (rest : Bytes)
    (written : encodeValues vs = .ok bytes) :
    readValues vs.length (bytes ++ rest) = .ok (vs, rest) := by
  induction vs generalizing bytes with
  | nil =>
    cases written
    rfl
  | cons v vs ih =>
    simp only [encodeValues] at written
    cases first : encodeValue v with
    | error fault => simp [first] at written
    | ok front =>
      cases others : encodeValues vs with
      | error fault => simp [first, others, Except.map] at written
      | ok back =>
        simp only [first, others, Except.map, Except.ok.injEq] at written
        subst written
        simp only [List.length_cons, readValues, List.append_assoc, readValue_encodeValue _ first,
          ih others, Except.map]

theorem decodeRow_encodeRow {vs : List Value} {body : Bytes} (written : encodeRow vs = .ok body) :
    decodeRow body = .ok vs := by
  unfold encodeRow at written
  cases field : lengthField "row" vs.length with
  | error fault => simp [field] at written
  | ok count =>
    cases others : encodeValues vs with
    | error fault => simp [field, others, Except.map] at written
    | ok fields =>
      have ⟨small, digits⟩ := lengthField_eq_ok field
      simp only [field, others, Except.map, Except.ok.injEq] at written
      subst written digits
      have values := readValues_encodeValues [] others
      rw [List.append_nil] at values
      simp [decodeRow, readLength_bigEndian _ small, values]

theorem length_lt_of_encodeRow {vs : List Value} {body : Bytes}
    (written : encodeRow vs = .ok body) :
    vs.length < UInt32.size := by
  unfold encodeRow at written
  split at written
  · cases written
  · next field => exact (lengthField_eq_ok field).1

/-- Values that can be encoded make up a row that can, if their number fits. -/
theorem encodeRow_ok {vs : List Value} (each : ∀ v ∈ vs, ∃ bytes, encodeValue v = .ok bytes)
    (small : vs.length < UInt32.size) : ∃ body, encodeRow vs = .ok body := by
  have fields : ∃ bytes, encodeValues vs = .ok bytes := by
    clear small
    induction vs with
    | nil => exact ⟨[], rfl⟩
    | cons v rest ih =>
      obtain ⟨front, first⟩ := each v List.mem_cons_self
      obtain ⟨back, others⟩ := ih fun w member => each w (List.mem_cons_of_mem _ member)
      exact ⟨front ++ back, by simp only [encodeValues, first, others]; rfl⟩
  obtain ⟨bytes, fields⟩ := fields
  exact ⟨_, by simp only [encodeRow, lengthField, if_pos small, fields]; rfl⟩
theorem encodeRow_replicate {v : Value} {bytes : Bytes}
    (written : encodeValue v = .ok bytes) {n : Nat} (small : n < UInt32.size) :
    ∃ body, encodeRow (List.replicate n v) = .ok body := by
  apply encodeRow_ok
  · intro w member
    rw [List.eq_of_mem_replicate member]
    exact ⟨bytes, written⟩
  · rwa [List.length_replicate]

end Interleave.Codec.Body
