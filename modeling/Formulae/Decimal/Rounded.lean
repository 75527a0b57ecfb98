import Formulae.Decimal.Exact

/-!
# Rounding to a number of significant digits

The exact value of a float has finitely many digits, usually far more than anyone wants. `rounded`
keeps the leading `places + 1` of them. The value is cut on the grid of multiples of the last
place kept, the rest decides, and a rest of exactly one half goes to the even neighbour.

Rounding up may carry into a new leading digit; the digits are then a one and zeros, and the
exponent moves up by one, so that the result always has the asked number of digits.
-/

namespace Formulae.Decimal

/-- A quotient of natural numbers rounded to the nearest, a tie going to the even neighbour. -/
def nearestEven (n d : Nat) : Nat :=
  let below := n / d
  let twice := 2 * (n % d)
  if twice < d ∨ (twice = d ∧ below % 2 = 0) then below else below + 1

/-- The rounded quotient is one of the two neighbours of the exact one. -/
theorem nearestEven_bounds (n d : Nat) :
    n / d ≤ nearestEven n d ∧ nearestEven n d ≤ n / d + 1 := by
  simp only [nearestEven]
  split <;> omega

/-- `m · 2 ^ q` to `places + 1` significant digits: the digits as a natural number, and the
exponent of the leading one. -/
def rounded (m : Nat) (q : Int) (places : Nat) : Nat × Int :=
  let e := leadingExponent m q
  let (u, d) := unit q (e - places)
  let n := nearestEven (m * u) d
  if n < Nat.pow 10 (places + 1) then (n, e) else (n / 10, e + 1)

end Formulae.Decimal
