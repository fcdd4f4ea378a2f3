import Interleave.Binary64
import Interleave.Decimal.Shortest
import Interleave.Text.Utf8

/-!
The values that columns hold, how two of them compare, and their text.
-/

namespace Interleave

inductive Value where
  | null
  | bool (b : Bool)
  | int (n : Int64)
  | float (x : Binary64)
  | text (s : String)
  | bytes (b : Bytes)
deriving DecidableEq

namespace Value

def typeName : Value → String
  | null => "Null"
  | bool _ => "Bool"
  | int _ => "Int"
  | float _ => "Float"
  | text _ => "String"
  | bytes _ => "Bytes"

def isNull : Value → Bool
  | null => true
  | _ => false

def asBool? : Value → Option Bool
  | bool b => some b
  | _ => none

def asInt? : Value → Option Int64
  | int n => some n
  | _ => none

def asFloat? : Value → Option Binary64
  | float x => some x
  | _ => none

def asText? : Value → Option String
  | text s => some s
  | _ => none

/-- Sameness of stored values: floats by number, so a NaN is the same as nothing and the two zeros
are the same; an integer is never the same as a float. -/
def same : Value → Value → Bool
  | null, null => true
  | bool a, bool b => a == b
  | int a, int b => a == b
  | float a, float b => a.numericEq b
  | text a, text b => a == b
  | bytes a, bytes b => a == b
  | _, _ => false

/-- The order that predicates test. Integers meet floats as the nearest float; other types do not
compare with each other. -/
def compare? : Value → Value → Option Ordering
  | null, null => some .eq
  | bool a, bool b => some (compare a.toNat b.toNat)
  | int a, int b => some (compare a.toInt b.toInt)
  | float a, float b => a.compare? b
  | int a, float b => (Binary64.ofInt a.toInt).compare? b
  | float a, int b => a.compare? (Binary64.ofInt b.toInt)
  | text a, text b => some (Text.order a b)
  | bytes a, bytes b => some (Bytes.order a b)
  | _, _ => none

def floatChars (x : Binary64) : List Char :=
  if x.isNaN then "NaN".toList
  else
    let sign := if x.negative then ['-'] else []
    if x.isInfinite then sign ++ "inf".toList
    else if x.magnitude = 0 then sign ++ ['0']
    else sign ++ Decimal.positional (Decimal.shortest x).1 (Decimal.shortest x).2

/-- Text stands between plain quotes, with nothing escaped. -/
def display : Value → String
  | null => "null"
  | bool b => if b then "true" else "false"
  | int n => toString n.toInt
  | float x => String.ofList (floatChars x)
  | text s => "\"" ++ s ++ "\""
  | bytes b => "0x" ++ b.hex

def sameAll (vs ws : List Value) : Bool :=
  vs.length == ws.length && (vs.zip ws).all fun (v, w) => v.same w

/-- The form of a value in keys. A whole float in the range of integers keys as the integer it
equals, so that either may name the other's row. -/
def keyForm : Value → Value
  | float x =>
    match x.int64? with
    | some n => int n
    | none => float x
  | v => v

theorem keyForm_of_asFloat?_eq_none {v : Value} (h : v.asFloat? = none) : v.keyForm = v := by
  cases v <;> first | rfl | cases h

theorem keyForm_keyForm (v : Value) : v.keyForm.keyForm = v.keyForm := by
  cases v with
  | float x => cases h : x.int64? <;> simp [keyForm, h]
  | _ => rfl

end Value

end Interleave
