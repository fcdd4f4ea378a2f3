import Interleave.Value
import Interleave.Fault

/-!
The stored form of rows: a version, the number of fields, then the fields, each a type tag and its
payload. Text and byte strings are preceded by their length in bytes. The form keeps every value
exactly and is read to the last byte, but it does not keep order.
-/

namespace Interleave.Codec.Body

abbrev Reader (α : Type) := Bytes → Except EncodingFault (α × Bytes)

def rowVersion : UInt8 := 1

def lengthField (what : String) (n : Nat) : Except EncodingFault Bytes :=
  if n < UInt32.size then .ok (Bytes.bigEndian 4 n) else .error (.tooLong what)

def encodeValue : Value → Except EncodingFault Bytes
  | .null => .ok [0]
  | .bool b => .ok [1, if b then 1 else 0]
  | .int n => .ok (2 :: Bytes.bigEndian 8 n.toUInt64.toNat)
  | .float x => .ok (3 :: Bytes.bigEndian 8 x.bits.toNat)
  | .text s => (lengthField "string" (Text.utf8 s).length).map fun n => 4 :: (n ++ Text.utf8 s)
  | .bytes b => (lengthField "bytes" b.length).map fun n => 5 :: (n ++ b)

def encodeValues : List Value → Except EncodingFault Bytes
  | [] => .ok []
  | v :: rest =>
    match encodeValue v with
    | .error fault => .error fault
    | .ok front => (encodeValues rest).map (front ++ ·)

def encodeRow (values : List Value) : Except EncodingFault Bytes :=
  match lengthField "row" values.length with
  | .error fault => .error fault
  | .ok count => (encodeValues values).map fun fields => rowVersion :: (count ++ fields)

def readLength : Reader Nat := fun input =>
  match Bytes.readWord? 4 input with
  | some read => .ok read
  | none => .error .endOfLength

def readWord : Reader Nat := fun input =>
  match Bytes.readWord? 8 input with
  | some read => .ok read
  | none => .error .endOfInput

/-- A length and that many bytes. -/
def readCounted : Reader Bytes := fun input =>
  match readLength input with
  | .error fault => .error fault
  | .ok (n, rest) =>
    if n ≤ rest.length then .ok (rest.take n, rest.drop n) else .error .endOfInput

def readText (data : Bytes) : Except EncodingFault Value :=
  match Text.ofUtf8 data with
  | .ok s => .ok (.text s)
  | .error fault => .error (.badText fault)

/-- Any payload but zero makes a true. -/
def readValue : Reader Value
  | [] => .error .endOfInput
  | tag :: rest =>
    if tag = 0 then .ok (.null, rest)
    else if tag = 1 then
      match rest with
      | [] => .error .endOfInput
      | b :: rest => .ok (.bool (b != 0), rest)
    else if tag = 2 then
      (readWord rest).map fun (w, rest) => (.int (UInt64.ofNat w).toInt64, rest)
    else if tag = 3 then (readWord rest).map fun (w, rest) => (.float ⟨UInt64.ofNat w⟩, rest)
    else if tag = 4 then
      match readCounted rest with
      | .error fault => .error fault
      | .ok (data, rest) => (readText data).map (·, rest)
    else if tag = 5 then (readCounted rest).map fun (data, rest) => (.bytes data, rest)
    else .error (.unknownTag tag)

def readValues : Nat → Reader (List Value)
  | 0, input => .ok ([], input)
  | count + 1, input =>
    match readValue input with
    | .error fault => .error fault
    | .ok (v, rest) => (readValues count rest).map fun (vs, rest) => (v :: vs, rest)

def decodeRow : Bytes → Except EncodingFault (List Value)
  | [] => .error .emptyRow
  | version :: rest =>
    if version ≠ rowVersion then .error (.rowVersion version)
    else match readLength rest with
      | .error fault => .error fault
      | .ok (count, rest) =>
        match readValues count rest with
        | .error fault => .error fault
        | .ok (values, rest) =>
          if rest.isEmpty then .ok values else .error (.afterRow rest.length)

end Interleave.Codec.Body
