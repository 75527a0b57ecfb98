import Formulae.Decimal.Exact

/-!
# Numeric functions

The functions on floats that formulas can call and that are not among the primitive ones. Each is
given by the formula that computes it, since two formulas for the same real function differ in
their last digits, near the ends of their domain and in the values that are not finite.

Three are exceptions: `power` multiplies small natural numbers out, where no digit can be lost,
`hypotenuse` takes the square root of the *exact* sum of squares and `cubeRoot` the cube root of the
exact value, and each of these rounds once, so neither overflows nor loses digits on the way.
-/

namespace Formulae.Numeric

open Float.Model (UnpackedFloat)

/-- The value that is no number. -/
def nan : Float := 0.0 / 0.0

/-- The positive infinity. -/
def infinity : Float := 1.0 / 0.0

/-- The ratio of a circle's circumference to its diameter. -/
def pi : Float := 3.14159265358979323846264338327950288

/-- The ratio of a circle's circumference to its radius. -/
def tau : Float := 6.28318530717958647692528676655900577

/-- The base of the natural logarithm. -/
def e : Float := 2.71828182845904523536028747135266250

/-- The whole part, towards zero. -/
def truncate (x : Float) : Float :=
  if x < 0.0 then x.ceil else x.floor

/-- Whether the whole part is all there is. Infinities have no whole part to speak of. -/
def isWhole (x : Float) : Bool :=
  x - truncate x == 0.0

/-- The sign of a number as `-1`, `0` or `1`. -/
def sign (x : Float) : Float :=
  if x == 0.0 then 0.0
  else if x > 0.0 then 1.0
  else if x < 0.0 then -1.0
  else nan

/-- The lesser of two numbers; an operand that is no number is ignored. -/
def least (x y : Float) : Float :=
  if x.isNaN then y
  else if y < x then y
  else x

/-- The greater of two numbers; an operand that is no number is ignored. -/
def greatest (x y : Float) : Float :=
  if x.isNaN then y
  else if x < y then y
  else x

/-- The natural number below `2 ^ 53` that a float is, if it is one. -/
def natural? (x : Float) : Option Nat :=
  match Exact.ofFloat x with
  | .finite false m q =>
    let unit := Nat.pow 2 (-q).toNat
    if q ≤ 0 ∧ m % unit = 0 then some (m / unit) else none
  | _ => none

/-- The power of two natural numbers, while it is below `2 ^ 53` and so is the float that holds
it. -/
def naturalPower? (x y : Float) : Option Float :=
  match natural? x, natural? y with
  | some base, some exponent =>
    if exponent < 53 ∧ Nat.pow base exponent < Nat.pow 2 53 then
      some (Nat.pow base exponent).toFloat
    else none
  | _, _ => none

/-- A power. It is multiplied out where the result is a natural number that a float holds exactly,
and else it is the primitive one. -/
def power (x y : Float) : Float :=
  (naturalPower? x y).getD (x ^ y)

/-- The length of the hypotenuse over two legs: an infinite leg decides, whatever the other is. -/
def hypotenuse (x y : Float) : Float :=
  match Exact.ofFloat x, Exact.ofFloat y with
  | .infinite _, _ => infinity
  | _, .infinite _ => infinity
  | .nan, _ => nan
  | _, .nan => nan
  | .finite _ m q, .finite _ n r =>
    let low := min q r
    let a := m * Nat.pow 2 (q - low).toNat
    let b := n * Nat.pow 2 (r - low).toNat
    if h : 0 < a * a + b * b then
      .ofModel (.pack (.sqrt .binary64 (.finite .positive (a * a + b * b) (2 * low) h)))
    else 0.0

/-- The largest natural number below `low + 2 ^ bits` whose cube is at most `n`, if `low` is such a
number: each bit is kept if it fits, from the highest. -/
def floorCubeRoot (n : Nat) : Nat → Nat → Nat
  | 0, low => low
  | bits + 1, low =>
    floorCubeRoot n bits
      (if Nat.pow (low + Nat.pow 2 bits) 3 ≤ n then low + Nat.pow 2 bits else low)

/-- The root found is a root from below. -/
theorem floorCubeRoot_pow_le {n low : Nat} (bits : Nat) (h : Nat.pow low 3 ≤ n) :
    Nat.pow (floorCubeRoot n bits low) 3 ≤ n := by
  induction bits generalizing low with
  | zero => exact h
  | succ bits ih =>
    unfold floorCubeRoot
    split
    · exact ih ‹_›
    · exact ih h

/-- The cube root. The mantissa is widened until its root has more digits than a float can hold,
and the root is then rounded once. -/
def cubeRoot (x : Float) : Float :=
  match x.toModel.unpack with
  | .finite s m q _ =>
    let third := (q - 170) / 3
    let n := m * Nat.pow 2 (q - 3 * third).toNat
    let root := floorCubeRoot n (n.log2 / 3 + 1) 0
    let accuracy : UnpackedFloat.Accuracy :=
      if Nat.pow root 3 = n then .exact
      else .inexact (if 8 * n < Nat.pow (2 * root + 1) 3 then .lt else .gt)
    .ofModel (.pack (.roundWithAccuracy .binary64 s root third accuracy))
  | _ => x

/-! ### The gamma function -/

/-- The coefficients of the approximation after the leading one. -/
def lanczosCoefficients : List Float :=
  [676.5203681218851, -1259.1392167224028, 771.3234287776531, -176.6150291621406,
    12.507343278686905, -0.13857109526572012, 9.984369578019572e-6, 1.5056327351493116e-7]

/-- The approximation of `Γ (z + 1)` by Lanczos, with nine terms around `7`, for `z ≥ -1/2`. -/
def lanczos (z : Float) : Float :=
  let series := lanczosCoefficients.zipIdx 1 |>.foldl
    (fun sum (c, i) ↦ sum + c / (z + i.toFloat)) 0.9999999999998099
  let t := z + 7.0 + 0.5
  tau.sqrt * t ^ (z + 0.5) * (-t).exp * series

/-- The gamma function; below one half it is reflected to the other side. -/
def gamma (z : Float) : Float :=
  if z < 0.5 then pi / ((pi * z).sin * lanczos (1.0 - z - 1.0))
  else lanczos (z - 1.0)

/-- `x!`. Whole numbers up to `170` are multiplied out; other numbers go through `Γ (x + 1)`, which
has no value at the negative whole numbers. -/
def factorial (x : Float) : Float :=
  if x.isNaN || (x < 0.0 && isWhole x) then nan
  else if x.isInf then (if x > 0.0 then infinity else nan)
  else if isWhole x && x ≤ 170.0 then
    (List.range x.toUInt64.toNat).foldl (fun product k ↦ product * (k + 1).toFloat) 1.0
  else gamma (x + 1.0)

end Formulae.Numeric
