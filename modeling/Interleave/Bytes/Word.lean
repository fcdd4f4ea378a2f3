import Interleave.Bytes

/-!
Numbers as big-endian digits in base 256. Main statements: reading the digits back gives the
number modulo its width, and a number that fits is recovered exactly.
-/

namespace Interleave.Bytes

/-- The number of words of a width. -/
def wordCount : Nat → Nat
  | 0 => 1
  | width + 1 => 256 * wordCount width

/-- The last `width` digits of `n`, most significant first. -/
def bigEndian : Nat → Nat → Bytes
  | 0, _ => []
  | width + 1, n => UInt8.ofNat (n / wordCount width) :: bigEndian width n

def ofBigEndian : Bytes → Nat
  | [] => 0
  | b :: rest => b.toNat * wordCount rest.length + ofBigEndian rest

/-- The first `width` bytes as a number, and the bytes after them. -/
def readWord? (width : Nat) (input : Bytes) : Option (Nat × Bytes) :=
  if width ≤ input.length then some (ofBigEndian (input.take width), input.drop width) else none

@[simp] theorem length_bigEndian (width n : Nat) : (bigEndian width n).length = width := by
  induction width with
  | zero => rfl
  | succ width ih => simp [bigEndian, ih]

theorem ofBigEndian_lt (b : Bytes) : ofBigEndian b < wordCount b.length := by
  induction b with
  | nil => decide
  | cons b rest ih =>
    have top : b.toNat ≤ 255 := Nat.le_of_lt_succ b.toNat_lt
    have scaled := Nat.mul_le_mul_right (wordCount rest.length) top
    simp only [ofBigEndian, List.length_cons, wordCount]
    omega

theorem ofBigEndian_bigEndian (width n : Nat) :
    ofBigEndian (bigEndian width n) = n % wordCount width := by
  induction width with
  | zero => exact (Nat.mod_one n).symm
  | succ width ih =>
    have digit : (UInt8.ofNat (n / wordCount width)).toNat = n / wordCount width % 256 := by
      simp [UInt8.toNat_ofNat']
    rw [bigEndian, ofBigEndian, length_bigEndian, ih, digit, wordCount, Nat.mul_comm 256,
      Nat.mod_mul, Nat.mul_comm, Nat.add_comm]

theorem readWord?_bigEndian (width n : Nat) (rest : Bytes) :
    readWord? width (bigEndian width n ++ rest) = some (n % wordCount width, rest) := by
  have front : (bigEndian width n ++ rest).take width = bigEndian width n :=
    List.take_left' (length_bigEndian width n)
  have back : (bigEndian width n ++ rest).drop width = rest :=
    List.drop_left' (length_bigEndian width n)
  simp [readWord?, front, back, ofBigEndian_bigEndian]

end Interleave.Bytes
