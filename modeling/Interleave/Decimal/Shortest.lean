import Interleave.Binary64

/-!
The decimal with the fewest digits that rounds back to a given float. It is a point of the
coarsest decimal grid that has a point in the interval of reals rounding to the float, and of two
such points it is the nearer one. Any point of a grid inside the interval leaves one of the
value's two neighbours on that grid inside it too, so only those two are tried.
-/

namespace Interleave.Decimal

/-- The reals that round to a positive value. All three are counted in units of `2 ^ unit`. -/
structure Rounding where
  low : Nat
  value : Nat
  high : Nat
  unit : Int
  closed : Bool

/-- The step down from a power of two is half the step up. -/
def Rounding.ofMagnitude (x : Binary64) : Rounding :=
  let m := x.significand
  let stepDown := if m = Binary64.fractions ∧ 2 * Binary64.fractions ≤ x.magnitude then 1 else 2
  ⟨4 * m - stepDown, 4 * m, 4 * m + 2, x.scale - 2, m % 2 = 0⟩

/-- The point of the grid `10 ^ place` that stands for the value: its multiple of the grid, if one
of the value's two neighbours lies in the interval. A tie goes up. -/
def Rounding.point? (r : Rounding) (place : Int) : Option Nat :=
  let times := Nat.pow 2 r.unit.toNat * Nat.pow 10 (-place).toNat
  let parts := Nat.pow 2 (-r.unit).toNat * Nat.pow 10 place.toNat
  let below := r.value * times / parts
  let rest := r.value * times % parts
  let reached (bound point : Nat) := bound < point || (r.closed && bound = point)
  let lowHit := 0 < below && reached (r.low * times) (below * parts)
  let highHit := reached ((below + 1) * parts) (r.high * times)
  if lowHit && (!highHit || 2 * rest < parts) then some below
  else if highHit then some (below + 1)
  else none

/-- The first grid with a point, from `place` downward. -/
def Rounding.coarsest (r : Rounding) : Nat → Int → Nat × Int
  | 0, place => (0, place)
  | fuel + 1, place =>
    match r.point? place with
    | some point => (point, place)
    | none => coarsest r fuel (place - 1)

/-- A value is below `10 ^ 309` and no float needs a grid finer than `10 ^ (-324)`. -/
def shortest (x : Binary64) : Nat × Int :=
  (Rounding.ofMagnitude x).coarsest 640 309

/-- `digits * 10 ^ place` without an exponent. -/
def positional (digits : Nat) (place : Int) : List Char :=
  let shown := (toString digits).toList
  if 0 ≤ place then shown ++ List.replicate place.toNat '0'
  else
    let depth := (-place).toNat
    if depth < shown.length then
      shown.take (shown.length - depth) ++ '.' :: shown.drop (shown.length - depth)
    else '0' :: '.' :: (List.replicate (depth - shown.length) '0' ++ shown)

end Interleave.Decimal
