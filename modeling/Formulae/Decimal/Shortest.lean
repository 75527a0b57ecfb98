import Formulae.Decimal.Exact

/-!
# The shortest decimal of a float

Every float is the nearest one to a whole interval of real numbers, and a decimal identifies the
float as soon as it lies in that interval. `shortest` is the one with the fewest digits, and of
those the nearest to the float's own value.

The search is over **grids**: the multiples of `10 ^ k`, from the coarsest that could hit the
interval down to one of seventeen digits, which always does. On one grid only the two neighbours
of the value have to be looked at (`pointOn?`), because the interval is convex and contains the
value. All of it is exact arithmetic on natural numbers.

Three decisions fix the result completely:

* the ends of the interval belong to it exactly when the mantissa is even, since a tie between two
  floats is read as the even one;
* the lower half of the interval is half as wide when the float is a power of two, where the
  spacing of the floats changes;
* of two neighbours at the same distance the larger one is taken.
-/

namespace Formulae.Decimal

/-- The float above or below `m · 2 ^ q` is nearer on the lower side: `m` is the least mantissa of
its binade, and the binade is not the lowest. -/
def narrowBelow (m : Nat) (q : Int) : Bool :=
  m == Nat.pow 2 52 && q > -1074

/-- The multiple of `10 ^ k` that is read back as `m · 2 ^ q` and nearest to it, counted in units
of `10 ^ k`. The half-widths of the interval are counted in quarters of `2 ^ q`. -/
def pointOn? (m : Nat) (q k : Int) : Option Nat :=
  let (u, d) := unit (q - 2) k
  let value := 4 * m * u
  let low := (4 * m - if narrowBelow m q then 1 else 2) * u
  let high := (4 * m + 2) * u
  let readsBack (n : Nat) : Bool :=
    if m % 2 == 0 then low ≤ n * d && n * d ≤ high else low < n * d && n * d < high
  let below := value / d
  match readsBack below, readsBack (below + 1) with
  | false, false => none
  | true, false => some below
  | false, true => some (below + 1)
  | true, true => some (if 2 * (value % d) < d then below else below + 1)

/-- The first grid, going down from `10 ^ k`, with a point that is read back as `m · 2 ^ q`; the
last grid tried answers with the value cut off there. -/
def firstPoint (m : Nat) (q : Int) : Nat → Int → Nat × Int
  | 0, k => let (u, d) := unit q k; (m * u / d, k)
  | tries + 1, k =>
    match pointOn? m q k with
    | some n => (n, k)
    | none => firstPoint m q tries (k - 1)

/-- The shortest decimal `n · 10 ^ k` that is read back as `m · 2 ^ q`, as the pair `(n, k)`. The
search starts one place above the leading digit, since the interval may reach a power of ten that
the value itself does not. -/
def shortest (m : Nat) (q : Int) : Nat × Int :=
  firstPoint m q 18 (leadingExponent m q + 1)

end Formulae.Decimal
