import Interleave.Value
import Interleave.Fault

/-!
The order-keeping form of values in keys: a type tag, then a payload whose bytes order like the
values. Text and byte strings write a zero byte as `00 01` and end with `00 00`, so that no form
begins another and forms can be written one after another.
-/

namespace Interleave.Codec.Sortable

def escape : Bytes → Bytes
  | [] => [0, 0]
  | b :: rest => if b = 0 then 0 :: 1 :: escape rest else b :: escape rest

def unescape : Bytes → Except EncodingFault (Bytes × Bytes)
  | [] => .error .unterminated
  | [_] => .error .unterminated
  | b :: c :: rest =>
    if b ≠ 0 then (unescape (c :: rest)).map fun (data, rest) => (b :: data, rest)
    else if c = 0 then .ok ([], rest)
    else if c = 1 then (unescape rest).map fun (data, rest) => (0 :: data, rest)
    else .error (.badEscape c)

/-- Integers count up from the least one. -/
def intWord (n : Int64) : Nat := (n.toInt - Int64.minValue.toInt).toNat

def ofIntWord (w : Nat) : Int64 := Int64.ofInt (w + Int64.minValue.toInt)

/-- Negative floats count down from the middle and the others up, with `-0.0` just below `0.0`.
Every NaN is the last word. -/
def floatWord (x : Binary64) : Nat :=
  if x.isNaN then UInt64.size - 1
  else if x.negative then UInt64.size - 1 - x.bits.toNat
  else x.bits.toNat + Binary64.signWeight

def ofFloatWord (w : Nat) : Binary64 :=
  if w = UInt64.size - 1 then .nan
  else if w < Binary64.signWeight then ⟨UInt64.ofNat (UInt64.size - 1 - w)⟩
  else ⟨UInt64.ofNat (w - Binary64.signWeight)⟩

def encode : Value → Bytes
  | .null => [0]
  | .bool b => [1, if b then 1 else 0]
  | .int n => 2 :: Bytes.bigEndian 8 (intWord n)
  | .float x => 3 :: Bytes.bigEndian 8 (floatWord x)
  | .text s => 4 :: escape (Text.utf8 s)
  | .bytes b => 5 :: escape b

def encodeAll (values : List Value) : Bytes := values.flatMap encode

def readWord (input : Bytes) : Except EncodingFault (Nat × Bytes) :=
  match Bytes.readWord? 8 input with
  | some read => .ok read
  | none => .error .truncatedSortable

/-- One value from the front, and the bytes after it. -/
def read : Bytes → Except EncodingFault (Value × Bytes)
  | [] => .error .emptySortable
  | tag :: rest =>
    if tag = 0 then .ok (.null, rest)
    else if tag = 1 then
      match rest with
      | [] => .error .truncatedSortable
      | b :: rest =>
        if b = 0 then .ok (.bool false, rest)
        else if b = 1 then .ok (.bool true, rest)
        else .error (.badBool b)
    else if tag = 2 then (readWord rest).map fun (w, rest) => (.int (ofIntWord w), rest)
    else if tag = 3 then (readWord rest).map fun (w, rest) => (.float (ofFloatWord w), rest)
    else if tag = 4 then
      match unescape rest with
      | .error fault => .error fault
      | .ok (data, rest) =>
        match Text.ofUtf8 data with
        | .ok s => .ok (.text s, rest)
        | .error fault => .error (.badText fault)
    else if tag = 5 then (unescape rest).map fun (data, rest) => (.bytes data, rest)
    else .error (.unknownSortableTag tag)

/-- Several values one after another. -/
def readAll : Nat → Bytes → Except EncodingFault (List Value × Bytes)
  | 0, input => .ok ([], input)
  | count + 1, input =>
    match read input with
    | .error fault => .error fault
    | .ok (v, rest) => (readAll count rest).map fun (vs, rest) => (v :: vs, rest)

/-- Exactly one value. -/
def decode (input : Bytes) : Except EncodingFault Value :=
  match read input with
  | .error fault => .error fault
  | .ok (v, rest) => if rest.isEmpty then .ok v else .error (.afterSortable rest.length)

theorem unescape_escape (data rest : Bytes) : unescape (escape data ++ rest) = .ok (data, rest) := by
  induction data with
  | nil => simp [escape, unescape]
  | cons b data ih =>
    by_cases zero : b = 0
    · simp [escape, zero, unescape, ih, Except.map]
    · cases form : escape data ++ rest with
      | nil => simp [form, unescape] at ih
      | cons c tail => simp [escape, zero, form, unescape, form ▸ ih, Except.map]

end Interleave.Codec.Sortable
