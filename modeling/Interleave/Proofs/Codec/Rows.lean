import Mathlib.Data.List.Forall2
import Interleave.Proofs.Codec.Body
import Interleave.Proofs.Key.SegmentEnds

/-!
What reads as a row. Bytes hold a value if they are its stored form; a true may also have another payload
than one. Main statement: what fits is written and reads back; bytes read as a row just if they are a
version, a count and as many values one after another, they are written again with one as the payload of
every true, and no bytes that they begin or that begin them read. All other bytes are refused, and reading
value by value never looks beyond the end.
-/

namespace Interleave.Codec.Body

open RowKey (slice?)

/-- How many bytes a text or a byte string has. -/
def payloadSize : Value → Nat
  | .text s => (Text.utf8 s).length
  | .bytes b => b.length
  | _ => 0

/-- Whether the number of the values and the sizes of texts and byte strings fit their fields. -/
def Fits (vs : List Value) : Prop :=
  vs.length < UInt32.size ∧ ∀ v ∈ vs, payloadSize v < UInt32.size

/-- How many bytes a value takes up. -/
def width : Value → Nat
  | .null => 1
  | .bool _ => 2
  | .int _ => 9
  | .float _ => 9
  | .text s => 5 + (Text.utf8 s).length
  | .bytes b => 5 + b.length

/-- Whether bytes hold a value. -/
def Holds (form : Bytes) (v : Value) : Prop :=
  encodeValue v = .ok form ∨ v = .bool true ∧ ∃ payload, payload ≠ 0 ∧ form = [1, payload]

/-- Whether bytes hold a row. -/
def HoldsRow (b : Bytes) (vs : List Value) : Prop :=
  vs.length < UInt32.size ∧ ∃ forms, List.Forall₂ Holds forms vs ∧
    b = rowVersion :: (Bytes.bigEndian 4 vs.length ++ forms.flatten)

/-- Whether the payload of a bool stands at a position among the fields of a row. -/
def isBoolPayload : List Value → Nat → Bool
  | [], _ => false
  | v :: vs, i => if i < width v then v.asBool?.isSome && i == 1 else isBoolPayload vs (i - width v)

/-- Fields with one as the payload of every true. -/
def settledFields (vs : List Value) (fields : Bytes) : Bytes :=
  fields.mapIdx fun i byte => if isBoolPayload vs i = true ∧ byte ≠ 0 then 1 else byte

/-- A row with one as the payload of every true. The fields begin after the version and the count. -/
def settled (vs : List Value) (b : Bytes) : Bytes := b.take 5 ++ settledFields vs (b.drop 5)

/-- The value that begins at an offset, and the offset where it ends. There is no answer when the offset
lies beyond the end. -/
def valueAt? (b : Bytes) (offset : Nat) : Option (Except EncodingFault (Value × Nat)) :=
  (slice? b offset).map fun input => (readValue input).map fun (v, _) => (v, offset + width v)

/-- Values one after another from an offset on, and where they end. -/
def valuesAt? (b : Bytes) : Nat → Nat → Option (Except EncodingFault (List Value × Nat))
  | 0, offset => some (.ok ([], offset))
  | count + 1, offset =>
    match valueAt? b offset with
    | none => none
    | some (.error fault) => some (.error fault)
    | some (.ok (v, next)) =>
      (valuesAt? b count next).map (Except.map fun (vs, last) => (v :: vs, last))

/-- A row value by value, each from the offset where the one before ended. -/
def decodeRowAt? : Bytes → Option (Except EncodingFault (List Value))
  | [] => some (.error .emptyRow)
  | version :: rest =>
    if version ≠ rowVersion then some (.error (.rowVersion version))
    else match readLength rest with
      | .error fault => some (.error fault)
      | .ok (count, _) =>
        match valuesAt? rest count 4 with
        | none => none
        | some (.error fault) => some (.error fault)
        | some (.ok (vs, last)) =>
          if last = rest.length then some (.ok vs) else some (.error (.afterRow (rest.length - last)))

section Values

variable {input form rest data : Bytes} {v : Value} {n : Nat}

theorem encodeValue_text {s : String} (small : (Text.utf8 s).length < UInt32.size) :
    encodeValue (.text s) =
      .ok (4 :: (Bytes.bigEndian 4 (Text.utf8 s).length ++ Text.utf8 s)) := by
  rw [encodeValue, lengthField, if_pos small]
  rfl

theorem encodeValue_bytes (small : data.length < UInt32.size) :
    encodeValue (.bytes data) = .ok (5 :: (Bytes.bigEndian 4 data.length ++ data)) := by
  rw [encodeValue, lengthField, if_pos small]
  rfl

theorem encodeValue_ok (v : Value) (fits : payloadSize v < UInt32.size) :
    ∃ form, encodeValue v = .ok form := by
  cases v with
  | text s => exact ⟨_, encodeValue_text fits⟩
  | bytes b => exact ⟨_, encodeValue_bytes fits⟩
  | _ => exact ⟨_, rfl⟩

theorem readLength_eq_ok (ok : readLength input = .ok (n, rest)) :
    n < UInt32.size ∧ input = Bytes.bigEndian 4 n ++ rest := by
  unfold readLength at ok
  split at ok
  · next result found =>
    obtain rfl := Except.ok.inj ok
    exact Bytes.readWord?_eq_some found
  · cases ok

theorem word_of_readWord (ok : readWord input = .ok (n, rest)) :
    (UInt64.ofNat n).toNat = n ∧ input = Bytes.bigEndian 8 n ++ rest := by
  unfold readWord at ok
  split at ok
  · next result found =>
    obtain rfl := Except.ok.inj ok
    obtain ⟨small, split⟩ := Bytes.readWord?_eq_some found
    exact ⟨UInt64.toNat_ofNat_of_lt small, split⟩
  · cases ok

theorem readCounted_eq_ok (ok : readCounted input = .ok (data, rest)) :
    data.length < UInt32.size ∧ input = Bytes.bigEndian 4 data.length ++ data ++ rest := by
  unfold readCounted at ok
  split at ok
  · cases ok
  next n tail found =>
  split at ok
  · next inside =>
    obtain ⟨rfl, rfl⟩ := Prod.mk.inj (Except.ok.inj ok)
    obtain ⟨small, rfl⟩ := readLength_eq_ok found
    rw [List.length_take, Nat.min_eq_left inside, List.append_assoc, List.take_append_drop]
    exact ⟨small, rfl⟩
  · cases ok

theorem holds_of_readBool (ok : readValue (1 :: input) = .ok (v, rest)) :
    ∃ form, 1 :: input = form ++ rest ∧ Holds form v := by
  rcases input with _ | ⟨payload, input⟩
  · cases ok
  obtain ⟨rfl, rfl⟩ := Prod.mk.inj (Except.ok.inj ok)
  refine ⟨[1, payload], rfl, ?_⟩
  by_cases zero : payload = 0
  · subst zero
    exact .inl rfl
  · exact .inr ⟨by simpa using zero, payload, zero, rfl⟩

theorem holds_of_readText (ok : readValue (4 :: input) = .ok (v, rest)) :
    ∃ form, 4 :: input = form ++ rest ∧ Holds form v := by
  cases counted : readCounted input with
  | error fault => simp [readValue, counted] at ok
  | ok result =>
    obtain ⟨data, rest'⟩ := result
    cases decoded : Text.ofUtf8 data with
    | error fault => simp [readValue, counted, readText, decoded, Except.map] at ok
    | ok s =>
      have whole : readValue (4 :: input) = .ok (.text s, rest') := by
        simp [readValue, counted, readText, decoded, Except.map]
      obtain ⟨rfl, rfl⟩ := Prod.mk.inj (Except.ok.inj (whole.symm.trans ok))
      obtain ⟨small, rfl⟩ := readCounted_eq_ok counted
      obtain rfl := Text.utf8_of_ofUtf8 decoded
      exact ⟨_, rfl, .inl (encodeValue_text small)⟩

/-- One case a tag: what follows a tag is read as the payload is. -/
theorem holds_of_readValue (ok : readValue input = .ok (v, rest)) :
    ∃ form, input = form ++ rest ∧ Holds form v := by
  rcases input with _ | ⟨tag, input⟩
  · cases ok
  by_cases null : tag = 0
  · subst null
    obtain ⟨rfl, rfl⟩ := Prod.mk.inj (Except.ok.inj ok)
    exact ⟨[0], rfl, .inl rfl⟩
  by_cases bool : tag = 1
  · subst bool
    exact holds_of_readBool ok
  by_cases int : tag = 2
  · subst int
    obtain ⟨⟨w, _⟩, found, same⟩ := map_eq_ok (show (readWord input).map _ = _ from ok)
    obtain ⟨rfl, rfl⟩ := Prod.mk.inj same
    obtain ⟨word, rfl⟩ := word_of_readWord found
    refine ⟨2 :: Bytes.bigEndian 8 w, rfl, .inl ?_⟩
    rw [encodeValue, UInt64.toUInt64_toInt64, word]
  by_cases float : tag = 3
  · subst float
    obtain ⟨⟨w, _⟩, found, same⟩ := map_eq_ok (show (readWord input).map _ = _ from ok)
    obtain ⟨rfl, rfl⟩ := Prod.mk.inj same
    obtain ⟨word, rfl⟩ := word_of_readWord found
    refine ⟨3 :: Bytes.bigEndian 8 w, rfl, .inl ?_⟩
    rw [encodeValue, word]
  by_cases text : tag = 4
  · subst text
    exact holds_of_readText ok
  by_cases bytes : tag = 5
  · subst bytes
    obtain ⟨⟨data, _⟩, found, same⟩ := map_eq_ok (show (readCounted input).map _ = _ from ok)
    obtain ⟨rfl, rfl⟩ := Prod.mk.inj same
    obtain ⟨small, rfl⟩ := readCounted_eq_ok found
    exact ⟨_, rfl, .inl (encodeValue_bytes small)⟩
  · simp [readValue, null, bool, int, float, text, bytes] at ok

/-- What holds a value reads as the value, whatever comes after it. -/
theorem Holds.read (holds : Holds form v) (rest : Bytes) :
    readValue (form ++ rest) = .ok (v, rest) := by
  rcases holds with written | ⟨rfl, payload, nonzero, rfl⟩
  · exact readValue_encodeValue rest written
  · simp [readValue, nonzero]

theorem length_of_encodeValue (written : encodeValue v = .ok form) : form.length = width v := by
  cases v with
  | null | bool =>
    obtain rfl := Except.ok.inj written
    rfl
  | int | float =>
    obtain rfl := Except.ok.inj written
    rw [List.length_cons, Bytes.length_bigEndian, width]
  | text | bytes =>
    obtain ⟨count, field, rfl⟩ := map_eq_ok written
    obtain ⟨_, rfl⟩ := lengthField_eq_ok field
    rw [List.length_cons, List.length_append, Bytes.length_bigEndian, width]
    omega

theorem Holds.length (holds : Holds form v) : form.length = width v := by
  rcases holds with written | ⟨rfl, payload, _, rfl⟩
  · exact length_of_encodeValue written
  · rfl

theorem width_pos (v : Value) : 0 < width v := by
  cases v with
  | null | bool | int | float => exact Nat.succ_pos _
  | text | bytes => exact Nat.add_pos_left (Nat.succ_pos 4) _

/-- The payload of a bool is at the end of its two bytes, and no other value has one. -/
theorem settledFields_holds (holds : Holds form v) :
    encodeValue v =
      .ok (form.mapIdx fun i byte => if (v.asBool?.isSome && i == 1) = true ∧ byte ≠ 0 then 1 else byte) := by
  rcases holds with written | ⟨rfl, payload, nonzero, rfl⟩
  · rw [written]
    refine congrArg Except.ok (List.mapIdx_eq_iff.2 fun i => ?_).symm
    cases v with
    | bool b =>
      obtain rfl := Except.ok.inj written
      cases b <;> rcases i with _ | _ | i <;> rfl
    | _ => simp [Value.asBool?]
  · simp [encodeValue, Value.asBool?, nonzero]

end Values

section Rows

variable {input b rest : Bytes} {forms : List Bytes} {vs ws : List Value} {n : Nat}

theorem isBoolPayload_inside {v : Value} {i : Nat} (inside : i < width v) :
    isBoolPayload (v :: vs) i = (v.asBool?.isSome && i == 1) := if_pos inside

theorem isBoolPayload_behind (v : Value) (i : Nat) :
    isBoolPayload (v :: vs) (i + width v) = isBoolPayload vs i := by
  rw [isBoolPayload, if_neg (Nat.not_lt.2 (Nat.le_add_left _ _)), Nat.add_sub_cancel]

theorem settledFields_cons {form : Bytes} {v : Value} (length : form.length = width v) (rest : Bytes) :
    settledFields (v :: vs) (form ++ rest) =
      (form.mapIdx fun i byte => if (v.asBool?.isSome && i == 1) = true ∧ byte ≠ 0 then 1 else byte) ++
        settledFields vs rest := by
  simp only [settledFields, List.mapIdx_append, length, isBoolPayload_behind]
  refine congrArg (· ++ _) (List.mapIdx_eq_iff.2 fun i => ?_)
  rw [List.getElem?_mapIdx]
  by_cases inside : i < form.length
  · simp only [isBoolPayload_inside (length ▸ inside)]
  · rw [List.getElem?_eq_none (Nat.not_lt.1 inside)]
    rfl

theorem encodeValues_of_holds (holds : List.Forall₂ Holds forms vs) :
    encodeValues vs = .ok (settledFields vs forms.flatten) := by
  induction holds with
  | nil => rfl
  | cons first _ ih =>
    rw [List.flatten_cons, settledFields_cons first.length, encodeValues, settledFields_holds first, ih]
    rfl

theorem readValues_of_holds (holds : List.Forall₂ Holds forms vs) (rest : Bytes) :
    readValues vs.length (forms.flatten ++ rest) = .ok (vs, rest) := by
  induction holds with
  | nil => rfl
  | cons first _ ih =>
    simp only [List.flatten_cons, List.append_assoc, List.length_cons, readValues, first.read, ih]
    rfl

theorem holds_of_readValues (ok : readValues n input = .ok (vs, rest)) :
    vs.length = n ∧ ∃ forms, List.Forall₂ Holds forms vs ∧ input = forms.flatten ++ rest := by
  induction n generalizing input vs with
  | zero =>
    obtain ⟨rfl, rfl⟩ := Prod.mk.inj (Except.ok.inj ok)
    exact ⟨rfl, [], .nil, rfl⟩
  | succ n ih =>
    rw [readValues] at ok
    split at ok
    · cases ok
    next v tail first =>
    obtain ⟨⟨others, _⟩, read, same⟩ := map_eq_ok ok
    obtain ⟨rfl, rfl⟩ := Prod.mk.inj same
    obtain ⟨form, rfl, holds⟩ := holds_of_readValue first
    obtain ⟨rfl, forms, others, rfl⟩ := ih read
    exact ⟨rfl, form :: forms, .cons holds others, by rw [List.flatten_cons, List.append_assoc]⟩

theorem decodeRow_of_counted (small : n < UInt32.size) (fields : Bytes) :
    decodeRow (rowVersion :: (Bytes.bigEndian 4 n ++ fields)) =
      match readValues n fields with
      | .error fault => .error fault
      | .ok (values, rest) => if rest.isEmpty then .ok values else .error (.afterRow rest.length) := by
  rw [decodeRow, if_neg (not_not.2 rfl)]
  rcases read : readValues n fields with fault | ⟨values, rest⟩ <;>
    simp only [readLength_bigEndian fields small, read]

/-- Bytes read as a row just if they hold it. -/
theorem decodeRow_eq_ok_iff : decodeRow b = .ok vs ↔ HoldsRow b vs := by
  constructor
  · intro ok
    rcases b with _ | ⟨version, b⟩
    · cases ok
    rw [decodeRow] at ok
    split at ok
    · cases ok
    next known =>
    obtain rfl := not_not.1 known
    split at ok
    · cases ok
    next n fields counted =>
    obtain ⟨small, rfl⟩ := readLength_eq_ok counted
    split at ok
    · cases ok
    next values rest read =>
    split at ok
    · next empty =>
      obtain rfl := Except.ok.inj ok
      obtain rfl := List.isEmpty_iff.1 empty
      obtain ⟨rfl, forms, holds, rfl⟩ := holds_of_readValues read
      exact ⟨small, forms, holds, by rw [List.append_nil]⟩
    · cases ok
  · rintro ⟨small, forms, holds, rfl⟩
    have read := readValues_of_holds holds []
    rw [List.append_nil] at read
    rw [decodeRow_of_counted small, read]
    rfl

/-- No row goes on after the end of another. -/
theorem eq_nil_of_append (front : decodeRow b = .ok vs) (whole : decodeRow (b ++ rest) = .ok ws) :
    rest = [] := by
  obtain ⟨small, forms, holds, rfl⟩ := decodeRow_eq_ok_iff.1 front
  rw [List.cons_append, List.append_assoc, decodeRow_of_counted small, readValues_of_holds holds] at whole
  simp only at whole
  split at whole
  · next empty => exact List.isEmpty_iff.1 empty
  · cases whole

theorem refused_of_ne_ok (refused : ∀ vs, decodeRow b ≠ .ok vs) : ∃ fault, decodeRow b = .error fault := by
  cases read : decodeRow b with
  | error fault => exact ⟨fault, rfl⟩
  | ok vs => exact absurd read (refused vs)

/-- The version and the count stay, and the fields are settled. -/
theorem encodeRow_of_holds (holds : HoldsRow b vs) : encodeRow vs = .ok (settled vs b) := by
  obtain ⟨small, forms, holds, rfl⟩ := holds
  have five : (rowVersion :: Bytes.bigEndian 4 vs.length).length = 5 := by
    rw [List.length_cons, Bytes.length_bigEndian]
  rw [encodeRow, lengthField, if_pos small, encodeValues_of_holds holds, ← List.cons_append, settled,
    List.take_left' five, List.drop_left' five]
  rfl

theorem length_settled (vs : List Value) (b : Bytes) : (settled vs b).length = b.length := by
  rw [settled, settledFields, List.length_append, List.length_mapIdx, ← List.length_append,
    List.take_append_drop]

end Rows

section Offsets

variable {b : Bytes} {offset next n : Nat} {v : Value}

/-- A turn moves on and stays inside. -/
theorem valueAt?_moves (found : valueAt? b offset = some (.ok (v, next))) :
    offset < next ∧ next ≤ b.length := by
  obtain ⟨input, sliced, read⟩ := Option.map_eq_some_iff.1 found
  obtain ⟨-, same⟩ := Option.ite_none_right_eq_some.1 sliced
  obtain rfl := Option.some.inj same
  obtain ⟨⟨v', rest⟩, value, same⟩ := map_eq_ok read
  obtain ⟨rfl, rfl⟩ := Prod.mk.inj same
  obtain ⟨form, split, holds⟩ := holds_of_readValue value
  have length := congrArg List.length split
  rw [List.length_drop, List.length_append, holds.length] at length
  have positive := width_pos v'
  omega

/-- Reading by offsets is reading from what is left. -/
theorem valuesAt?_eq (inside : offset ≤ b.length) : valuesAt? b n offset =
    some ((readValues n (b.drop offset)).map fun (vs, rest) => (vs, b.length - rest.length)) := by
  induction n generalizing offset with
  | zero =>
    simp only [valuesAt?, readValues, Except.map, List.length_drop, Nat.sub_sub_self inside]
  | succ n ih =>
    rw [valuesAt?, valueAt?, slice?, if_pos inside, readValues]
    simp only [Option.map_some]
    cases read : readValue (b.drop offset) with
    | error fault => rfl
    | ok result =>
      obtain ⟨v, rest⟩ := result
      obtain ⟨form, split, holds⟩ := holds_of_readValue read
      have behind : b.drop (offset + width v) = rest := by
        rw [← List.drop_drop, split, List.drop_left' holds.length]
      have length := congrArg List.length split
      rw [List.length_drop, List.length_append, holds.length] at length
      simp only [Except.map]
      rw [ih (by omega), behind]
      cases readValues n rest <;> rfl

/-- Reading a row value by value comes to the row and never looks beyond the end. -/
theorem decodeRowAt?_eq (b : Bytes) : decodeRowAt? b = some (decodeRow b) := by
  rcases b with _ | ⟨version, b⟩
  · rfl
  rw [decodeRowAt?, decodeRow]
  split
  · rfl
  cases counted : readLength b with
  | error fault => rfl
  | ok result =>
    obtain ⟨n, fields⟩ := result
    obtain ⟨_, rfl⟩ := readLength_eq_ok counted
    have four : (Bytes.bigEndian 4 n).length = 4 := Bytes.length_bigEndian 4 n
    have inside : 4 ≤ (Bytes.bigEndian 4 n ++ fields).length := by
      rw [List.length_append, four]
      exact Nat.le_add_right 4 _
    simp only [valuesAt?_eq inside, List.drop_left' four]
    cases read : readValues n fields with
    | error fault => rfl
    | ok result =>
      obtain ⟨vs, rest⟩ := result
      obtain ⟨-, forms, -, rfl⟩ := holds_of_readValues read
      have left : rest.length ≤ (Bytes.bigEndian 4 n ++ (forms.flatten ++ rest)).length := by
        simp only [List.length_append]
        omega
      simp only [Except.map, Nat.sub_sub_self left]
      rcases rest with _ | ⟨byte, rest⟩
      · rw [List.length_nil, if_pos (Nat.sub_zero _)]
        rfl
      · rw [if_neg (by rw [List.length_cons] at left ⊢; omega)]
        rfl

end Offsets

/-- What fits is written and reads back. Bytes read as a row just if they hold it; they are then written
again settled, in as many bytes, and neither what begins them nor what they begin reads. All other bytes are
refused. Reading value by value comes to the same, each turn moves on, and none looks beyond the end. -/
theorem decodes_exactly :
    (∀ vs, Fits vs → ∃ b, encodeRow vs = .ok b ∧ decodeRow b = .ok vs) ∧
    (∀ b vs, decodeRow b = .ok vs ↔ HoldsRow b vs) ∧
    (∀ b vs, decodeRow b = .ok vs →
      encodeRow vs = .ok (settled vs b) ∧ (settled vs b).length = b.length ∧
      (∀ front back, back ≠ [] → b = front ++ back → ∃ fault, decodeRow front = .error fault) ∧
      ∀ back, back ≠ [] → ∃ fault, decodeRow (b ++ back) = .error fault) ∧
    (∀ b, (¬ ∃ vs, HoldsRow b vs) → ∃ fault, decodeRow b = .error fault) ∧
    (∀ b, decodeRowAt? b = some (decodeRow b)) ∧
    ∀ b offset v next, valueAt? b offset = some (.ok (v, next)) → offset < next ∧ next ≤ b.length := by
  refine ⟨fun vs fits => ?_, fun b vs => decodeRow_eq_ok_iff, fun b vs read => ?_, fun b unheld => ?_,
    decodeRowAt?_eq, fun b offset v next => valueAt?_moves⟩
  · obtain ⟨b, written⟩ := encodeRow_ok (fun v member => encodeValue_ok v (fits.2 v member)) fits.1
    exact ⟨b, written, decodeRow_encodeRow written⟩
  · refine ⟨encodeRow_of_holds (decodeRow_eq_ok_iff.1 read), length_settled vs b,
      fun front back some split => refused_of_ne_ok fun ws early => ?_,
      fun back some => refused_of_ne_ok fun ws late => some (eq_nil_of_append read late)⟩
    exact some (eq_nil_of_append early (split ▸ read))
  · exact refused_of_ne_ok fun vs read => unheld ⟨vs, decodeRow_eq_ok_iff.1 read⟩

/-- A true with seven as its payload, and a text. -/
def oddRow : Bytes := [1, 0, 0, 0, 2, 1, 7, 4, 0, 0, 0, 1, 98]

def oddValues : List Value := [.bool true, .text "b"]

/-- The row is written again with one in place of seven, and does not read without its last byte or with
another one, or with a payload that is no text. -/
theorem decodes_exactly_odd : Fits oddValues ∧ decodeRow oddRow = .ok oddValues ∧ HoldsRow oddRow oddValues ∧
    encodeRow oddValues = .ok [1, 0, 0, 0, 2, 1, 1, 4, 0, 0, 0, 1, 98] ∧
    (∃ fault, decodeRow [1, 0, 0, 0, 2, 1, 7, 4, 0, 0, 0, 1] = .error fault) ∧
    (∃ fault, decodeRow (oddRow ++ [0]) = .error fault) ∧
    (¬ ∃ vs, HoldsRow [1, 0, 0, 0, 1, 4, 0, 0, 0, 1, 255] vs) ∧
    (∃ fault, decodeRow [1, 0, 0, 0, 1, 4, 0, 0, 0, 1, 255] = .error fault) ∧
    decodeRowAt? oddRow = some (.ok oddValues) ∧
    valueAt? oddRow 5 = some (.ok (.bool true, 7)) ∧ 5 < 7 ∧ 7 ≤ oddRow.length := by
  obtain ⟨round, held, written, refused, offsets, moves⟩ := decodes_exactly
  have fits : Fits oddValues := ⟨by decide, by decide⟩
  have read : decodeRow oddRow = .ok oddValues := by decide +kernel
  have unheld : ¬ ∃ vs, HoldsRow [1, 0, 0, 0, 1, 4, 0, 0, 0, 1, 255] vs := by
    rintro ⟨vs, holds⟩
    have bad : decodeRow [1, 0, 0, 0, 1, 4, 0, 0, 0, 1, 255] = .error (.badText ⟨0, some 1⟩) := by
      decide +kernel
    cases bad.symm.trans ((held _ vs).2 holds)
  have turn : valueAt? oddRow 5 = some (.ok (.bool true, 7)) := by decide +kernel
  obtain ⟨again, _, front, back⟩ := written oddRow oddValues read
  obtain ⟨onward, inside⟩ := moves oddRow 5 (.bool true) 7 turn
  obtain ⟨_, _, _⟩ := round oddValues fits
  exact ⟨fits, read, (held _ _).1 read, again, front _ [98] (by decide) rfl, back [0] (by decide), unheld,
    refused _ unheld, (offsets oddRow).trans (congrArg some read), turn, onward, inside⟩

end Interleave.Codec.Body
