/-!
Floating-point numbers as their 64 bits: sign, eleven bits of exponent, 52 of fraction. Every
operation is arithmetic on the bits. Main statements: two numbers are equal when they have one
`rank`, which forgets only the sign of zero, and only a NaN is beyond comparison.
-/

namespace Interleave

structure Binary64 where
  bits : UInt64
deriving DecidableEq

namespace Binary64

def nan : Binary64 := ⟨0x7ff8000000000000⟩

/-- What the sign bit is worth in the bits read as a number. -/
def signWeight : Nat := 0x8000000000000000

/-- How many fractions there are for one exponent. -/
def fractions : Nat := 0x10000000000000

def negative (x : Binary64) : Bool := signWeight ≤ x.bits.toNat

/-- The bits below the sign. Read as a number they order the magnitudes, with infinity above every
finite number and the NaNs above infinity. -/
def magnitude (x : Binary64) : Nat := x.bits.toNat % signWeight

def infinity : Nat := 0x7ff * fractions

def isNaN (x : Binary64) : Bool := infinity < x.magnitude

def isInfinite (x : Binary64) : Bool := x.magnitude = infinity

def isFinite (x : Binary64) : Bool := x.magnitude < infinity

/-- The place of a number in numeric order. Both zeros have rank 0. -/
def rank (x : Binary64) : Int :=
  if x.negative then -(x.magnitude : Int) else x.magnitude

def compare? (x y : Binary64) : Option Ordering :=
  if x.isNaN || y.isNaN then none else some (compare x.rank y.rank)

def numericEq (x y : Binary64) : Bool := x.compare? y == some .eq

/-- A finite magnitude is `significand * 2 ^ scale`. -/
def significand (x : Binary64) : Nat :=
  if x.magnitude < fractions then x.magnitude else fractions + x.magnitude % fractions

def scale (x : Binary64) : Int :=
  if x.magnitude < fractions then -1074 else (x.magnitude / fractions : Nat) - 1075

/-- `n / 2 ^ shift` to the nearest whole number, a half going to the even neighbour. -/
def roundShift (n shift : Nat) : Nat :=
  let unit := 1 <<< shift
  let whole := n / unit
  let rest := n % unit
  if unit < 2 * rest ∨ (unit = 2 * rest ∧ whole % 2 = 1) then whole + 1 else whole

/-- The magnitude of the number nearest to `n`. A significand that rounds up to a power of two
carries into the exponent. -/
def magnitudeOfNat (n : Nat) : Nat :=
  if n = 0 then 0
  else
    let top := n.log2
    let significand := if top ≤ 52 then n <<< (52 - top) else roundShift n (top - 52)
    (top + 1023) * fractions + (significand - fractions)

def ofInt (n : Int) : Binary64 :=
  let sign := if n < 0 then signWeight else 0
  ⟨UInt64.ofNat (sign + magnitudeOfNat n.natAbs)⟩

/-- The magnitude of a finite number, if it is whole. -/
def wholeMagnitude? (x : Binary64) : Option Nat :=
  if 0 ≤ x.scale then some (x.significand <<< x.scale.toNat)
  else
    let unit := 1 <<< (-x.scale).toNat
    if x.significand % unit = 0 then some (x.significand / unit) else none

/-- The whole number that a float stands for. Infinities and NaNs stand for none. -/
def whole? (x : Binary64) : Option Int :=
  if x.isFinite then x.wholeMagnitude?.map fun n => if x.negative then -(n : Int) else n else none

/-- The integer that a float equals, if it is in the range of integers. -/
def int64? (x : Binary64) : Option Int64 :=
  match x.whole? with
  | some n =>
    if Int64.minValue.toInt ≤ n ∧ n ≤ Int64.maxValue.toInt then some (Int64.ofInt n) else none
  | none => none

theorem compare?_eq_none_iff {x y : Binary64} :
    x.compare? y = none ↔ x.isNaN = true ∨ y.isNaN = true := by
  unfold compare?
  split <;> simp_all

theorem numericEq_iff {x y : Binary64} :
    x.numericEq y = true ↔ x.isNaN = false ∧ y.isNaN = false ∧ x.rank = y.rank := by
  unfold numericEq compare?
  cases x.isNaN <;> cases y.isNaN <;> simp

end Binary64

end Interleave
