/-!
# The exact value of a float

Printing a number needs its value, not its bits: a finite float is `± mantissa · 2 ^ exponent`
with natural `mantissa`, and everything the printers do afterwards is exact arithmetic on natural
numbers. `Exact` is that value, together with the three values that are not finite.

Two shape decisions:

* zero is finite with mantissa `0`, so its sign is kept by the same field as every other sign;
* the decimal order of a positive value is read off a digit count, not off a logarithm
  (`leadingExponent`): a value of at least one has the order of its whole part, and a smaller one
  the order of its reciprocal rounded up. No estimate is made, so none has to be corrected.
-/

namespace Formulae

open Float.Model (UnpackedFloat)

/-- A float taken apart into the value it stands for. -/
inductive Exact where
  /-- No number. -/
  | nan
  /-- An infinity. -/
  | infinite (negative : Bool)
  /-- The number `mantissa · 2 ^ exponent`, or its opposite. -/
  | finite (negative : Bool) (mantissa : Nat) (exponent : Int)
deriving DecidableEq

/-- Whether a sign is the minus sign. -/
def isMinus : UnpackedFloat.Sign → Bool
  | .negative => true
  | .positive => false

/-- The value a float stands for. -/
def Exact.ofFloat (x : Float) : Exact :=
  match x.toModel.unpack with
  | .notANumber => .nan
  | .infinity s => .infinite (isMinus s)
  | .zero s => .finite (isMinus s) 0 0
  | .finite s m q _ => .finite (isMinus s) m q

namespace Decimal

/-- The unit `2 ^ q` measured in units of `10 ^ k`, as a numerator and a denominator. -/
def unit (q k : Int) : Nat × Nat :=
  (Nat.pow 2 q.toNat * Nat.pow 10 (-k).toNat, Nat.pow 2 (-q).toNat * Nat.pow 10 k.toNat)

theorem unit_fst_pos (q k : Int) : 0 < (unit q k).1 :=
  Nat.mul_pos (Nat.two_pow_pos _) (Nat.pow_pos (by decide))

theorem unit_snd_pos (q k : Int) : 0 < (unit q k).2 :=
  Nat.mul_pos (Nat.two_pow_pos _) (Nat.pow_pos (by decide))

/-- The decimal digits of a natural number. -/
def digits (n : Nat) : List Char :=
  Nat.toDigits 10 n

/-- The text of a natural number. -/
def naturalText (n : Nat) : String :=
  String.ofList (digits n)

/-- The exponent of the leading decimal digit of `m · 2 ^ q`, for positive `m`. -/
def leadingExponent (m : Nat) (q : Int) : Int :=
  let (u, d) := unit q 0
  if d ≤ m * u then (digits (m * u / d)).length - 1
  else -((digits ((d + m * u - 1) / (m * u) - 1)).length : Int)

end Decimal

end Formulae
