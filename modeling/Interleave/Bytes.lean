/-!
Byte strings under lexicographic order: a string comes before another when it ends first or has
the smaller byte at the first place where they differ. Main statements: `order` decides this order
in one pass, `successor?` fails only on strings of the largest byte, and hexadecimal text reads
back.
-/

namespace Interleave

abbrev Bytes := List UInt8

namespace Bytes

def order : Bytes → Bytes → Ordering
  | [], [] => .eq
  | [], _ :: _ => .lt
  | _ :: _, [] => .gt
  | a :: as, b :: bs => if a < b then .lt else if b < a then .gt else order as bs

/-- A last byte that cannot grow is dropped and the byte before it grows instead. -/
def successor? : Bytes → Option Bytes
  | [] => none
  | b :: rest =>
    match successor? rest with
    | some next => some (b :: next)
    | none => if b = 255 then none else some [b + 1]

def hexDigit (n : Nat) : Char :=
  if n < 10 then Char.ofNat ('0'.toNat + n) else Char.ofNat ('a'.toNat + (n - 10))

/-- Two digits a byte, in lower case. -/
def hexChars : Bytes → List Char
  | [] => []
  | b :: rest => hexDigit (b.toNat / 16) :: hexDigit (b.toNat % 16) :: hexChars rest

def hex (b : Bytes) : String := String.ofList (hexChars b)

def hexValue? (c : Char) : Option Nat :=
  if '0' ≤ c && c ≤ '9' then some (c.toNat - '0'.toNat)
  else if 'a' ≤ c && c ≤ 'f' then some (c.toNat - 'a'.toNat + 10)
  else if 'A' ≤ c && c ≤ 'F' then some (c.toNat - 'A'.toNat + 10)
  else none

/-- Reads digits of either case, two a byte. -/
def ofHexChars? : List Char → Option Bytes
  | [] => some []
  | [_] => none
  | a :: b :: rest => do
    let high ← hexValue? a
    let low ← hexValue? b
    return UInt8.ofNat (16 * high + low) :: (← ofHexChars? rest)

/-- A single byte as a number, without a leading zero digit. -/
def hexNumber (b : UInt8) : String :=
  "0x" ++ String.ofList
    (if b.toNat < 16 then [hexDigit b.toNat] else [hexDigit (b.toNat / 16), hexDigit (b.toNat % 16)])

theorem order_self (a : Bytes) : order a a = .eq := by
  induction a with
  | nil => rfl
  | cons a as ih => simp [order, ih]

theorem order_swap (a b : Bytes) : (order a b).swap = order b a := by
  induction a generalizing b with
  | nil => cases b <;> rfl
  | cons a as ih =>
    cases b with
    | nil => rfl
    | cons b bs =>
      unfold order
      by_cases lower : a < b
      · simp [lower, UInt8.lt_asymm lower]
      · by_cases higher : b < a <;> simp [lower, higher, ih]

theorem order_eq_lt_iff {a b : Bytes} : order a b = .lt ↔ a < b := by
  induction a generalizing b with
  | nil => cases b <;> simp [order]
  | cons a as ih =>
    cases b with
    | nil => simp [order]
    | cons b bs =>
      unfold order
      rw [List.cons_lt_cons_iff]
      by_cases lower : a < b
      · simp [lower]
      · by_cases higher : b < a
        · have different : a ≠ b := fun h => UInt8.lt_irrefl b (h ▸ higher)
          simp [lower, higher, different]
        · have same : a = b := UInt8.le_antisymm (UInt8.not_lt.1 higher) (UInt8.not_lt.1 lower)
          simp [same, ih, UInt8.lt_irrefl]

theorem order_eq_gt_iff {a b : Bytes} : order a b = .gt ↔ b < a := by
  rw [← order_eq_lt_iff, ← order_swap a b]
  cases order a b <;> simp

theorem order_eq_eq_iff {a b : Bytes} : order a b = .eq ↔ a = b := by
  constructor
  · intro h
    refine List.le_antisymm (List.not_lt.1 fun lower => ?_) (List.not_lt.1 fun lower => ?_)
    · simp [order_eq_gt_iff.2 lower] at h
    · simp [order_eq_lt_iff.2 lower] at h
  · rintro rfl
    exact order_self a

theorem successor?_eq_none_iff {p : Bytes} : successor? p = none ↔ ∀ b ∈ p, b = 255 := by
  induction p with
  | nil => simp [successor?]
  | cons b rest ih =>
    unfold successor?
    cases h : successor? rest with
    | some next => simp [← ih, h]
    | none =>
      have all := ih.1 h
      by_cases top : b = 255
      · simpa [top] using all
      · simp [top]

theorem hexValue?_hexDigit (n : Nat) (h : n < 16) : hexValue? (hexDigit n) = some n := by
  revert n
  decide

theorem ofHexChars?_hexChars (b : Bytes) : ofHexChars? (hexChars b) = some b := by
  induction b with
  | nil => rfl
  | cons b rest ih =>
    have small := b.toNat_lt
    have high := hexValue?_hexDigit (b.toNat / 16) (by omega)
    have low := hexValue?_hexDigit (b.toNat % 16) (by omega)
    simp [hexChars, ofHexChars?, high, low, ih, Nat.div_add_mod, -UInt8.ofNat_add, -UInt8.ofNat_mul]

theorem length_hexChars (b : Bytes) : (hexChars b).length = 2 * b.length := by
  induction b with
  | nil => rfl
  | cons b rest ih => simp only [hexChars, List.length_cons, ih]; omega

end Bytes

end Interleave
