import Interleave.Bytes

/-!
Text as UTF-8 bytes. Reading accepts exactly the byte strings that some text is written as, and a
refusal says where the first bad sequence starts and how many of its bytes can be told to be wrong.
-/

namespace Interleave

namespace Text

def utf8 (s : String) : Bytes := s.toByteArray.data.toList

/-- Where reading stopped. `width` counts the bytes of the bad sequence; it is absent when the
input ends inside a sequence that was good so far. -/
structure Utf8Fault where
  start : Nat
  width : Option Nat
deriving DecidableEq, Repr

namespace Utf8Fault

def message : Utf8Fault → String
  | ⟨start, some width⟩ =>
    "invalid utf-8 sequence of " ++ toString width ++ " bytes from index " ++ toString start
  | ⟨start, none⟩ => "incomplete utf-8 byte sequence from index " ++ toString start

end Utf8Fault

def isContinuation (b : UInt8) : Bool := 0x80 ≤ b && b ≤ 0xBF

/-- The bytes that may follow a leading byte, and how many bytes follow it in all. A range
narrower than that of a continuation byte keeps out overlong forms, surrogates and numbers past
the last code point. -/
def followers (lead : UInt8) : Option (UInt8 × UInt8 × Nat) :=
  if lead < 0xC2 then none
  else if lead ≤ 0xDF then some (0x80, 0xBF, 1)
  else if lead = 0xE0 then some (0xA0, 0xBF, 2)
  else if lead = 0xED then some (0x80, 0x9F, 2)
  else if lead ≤ 0xEF then some (0x80, 0xBF, 2)
  else if lead = 0xF0 then some (0x90, 0xBF, 3)
  else if lead ≤ 0xF3 then some (0x80, 0xBF, 3)
  else if lead = 0xF4 then some (0x80, 0x8F, 3)
  else none

/-- What a sequence shows itself to be: whole, cut off by the end, or wrong after `n` bytes. -/
inductive Sequence where
  | whole
  | cut
  | wrong (n : Nat)

def continuations : Nat → Nat → Bytes → Sequence
  | 0, _, _ => .whole
  | _ + 1, _, [] => .cut
  | more + 1, seen, b :: rest =>
    if isContinuation b then continuations more (seen + 1) rest else .wrong seen

def sequence (lead : UInt8) (rest : Bytes) : Sequence :=
  if lead < 0x80 then .whole
  else match followers lead with
    | none => .wrong 1
    | some (low, high, count) =>
      match rest with
      | [] => .cut
      | b :: rest => if low ≤ b && b ≤ high then continuations (count - 1) 2 rest else .wrong 1

/-- The first fault of a byte string. `pending` counts the bytes of a good sequence still to pass. -/
def faultFrom : Nat → Nat → Bytes → Option Utf8Fault
  | _, _, [] => none
  | start, pending + 1, _ :: rest => faultFrom (start + 1) pending rest
  | start, 0, lead :: rest =>
    match sequence lead rest with
    | .cut => some ⟨start, none⟩
    | .wrong n => some ⟨start, some n⟩
    | .whole =>
      faultFrom (start + 1) (if lead < 0x80 then 0 else ((followers lead).map (·.2.2)).getD 0) rest

def ofUtf8 (b : Bytes) : Except Utf8Fault String :=
  match String.fromUTF8? ⟨b.toArray⟩ with
  | some s => .ok s
  | none => .error ((faultFrom 0 0 b).getD ⟨0, none⟩)

theorem ofUtf8_utf8 (s : String) : ofUtf8 (utf8 s) = .ok s := by
  have valid : (⟨(utf8 s).toArray⟩ : ByteArray) = s.toByteArray := by
    simp [utf8]
  simp only [ofUtf8, valid, String.fromUTF8?, s.isValidUTF8, dite_true]
  rfl

theorem utf8_of_ofUtf8 {b : Bytes} {s : String} (h : ofUtf8 b = .ok s) : utf8 s = b := by
  unfold ofUtf8 String.fromUTF8? at h
  split at h
  · next found =>
    split at found
    · obtain rfl := Option.some.inj found
      obtain rfl := Except.ok.inj h
      simp [utf8, String.fromUTF8]
    · cases found
  · cases h

theorem utf8_inj {s t : String} : utf8 s = utf8 t ↔ s = t := by
  constructor
  · intro h
    have both := ofUtf8_utf8 s
    rw [h, ofUtf8_utf8 t] at both
    exact (Except.ok.inj both).symm
  · rintro rfl
    rfl

/-- Texts in the order of their bytes. -/
def order (s t : String) : Ordering := Bytes.order (utf8 s) (utf8 t)

end Text

end Interleave
