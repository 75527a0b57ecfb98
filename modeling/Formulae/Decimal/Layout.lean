import Formulae.Decimal.Rounded
import Formulae.Decimal.Shortest

/-!
# Written numbers

Three ways to write a float. Two of them write the shortest decimal that is read back as the same
float, and differ only in a `Layout`: where positional notation ends, and whether a whole number
shows that it is not an integer. The third keeps a fixed number of significant digits and always
shows the exponent.

The signs of zero and of infinity are written, and the value that is no number is `NaN` in all
three.
-/

namespace Formulae

open Decimal

/-- The decisions of a number format that writes the shortest digits. -/
structure Layout where
  /-- Whether a number whose leading digit has this exponent is written without an exponent. -/
  positional : Int → Bool
  /-- What follows a whole number in positional notation. -/
  wholeTail : String

namespace Layout

/-- Numbers as a reader of formulas writes them: digits and at most one point, never an exponent. -/
def plain : Layout where
  positional _ := true
  wholeTail := ""

/-- Numbers as they are shown inside structures: always recognisable as fractional, and with an
exponent outside `10 ^ -4 … 10 ^ 16`. -/
def marked : Layout where
  positional e := -4 ≤ e && e ≤ 15
  wholeTail := ".0"

end Layout

namespace Decimal

/-- A run of zeros. -/
def zeros (n : Nat) : String :=
  String.ofList (List.replicate n '0')

/-- The digits of `n · 10 ^ k` around a decimal point. -/
def positionalText (n : Nat) (k : Int) (wholeTail : String) : String :=
  let ds := digits n
  let places := (-k).toNat
  if 0 ≤ k then String.ofList ds ++ zeros k.toNat ++ wholeTail
  else if places < ds.length then
    String.ofList (ds.take (ds.length - places)) ++ "." ++
      String.ofList (ds.drop (ds.length - places))
  else "0." ++ zeros (places - ds.length) ++ String.ofList ds

/-- The text of an integer. -/
def integerText : Int → String
  | .ofNat n => naturalText n
  | .negSucc n => "-" ++ naturalText (n + 1)

/-- Digits with a point after the first one, if there are others, and an exponent. -/
def scientificText (ds : List Char) (exponent : Int) : String :=
  let mantissa := match ds with
    | first :: second :: rest => String.ofList (first :: '.' :: second :: rest)
    | ds => String.ofList ds
  mantissa ++ "e" ++ integerText exponent

/-- The sign of a number that is written with one. -/
def signText (negative : Bool) : String :=
  if negative then "-" else ""

/-- The shortest digits of a float under a layout. -/
def text (layout : Layout) (x : Float) : String :=
  match Exact.ofFloat x with
  | .nan => "NaN"
  | .infinite negative => signText negative ++ "inf"
  | .finite negative 0 _ => signText negative ++ positionalText 0 0 layout.wholeTail
  | .finite negative m q =>
    let (n, k) := shortest m q
    let e := k + (digits n).length - 1
    signText negative ++
      if layout.positional e then positionalText n k layout.wholeTail
      else scientificText (digits n) e

/-- A float to `places + 1` significant digits, with an exponent. -/
def significantText (places : Nat) (x : Float) : String :=
  match Exact.ofFloat x with
  | .nan => "NaN"
  | .infinite negative => signText negative ++ "inf"
  | .finite negative 0 _ =>
    signText negative ++ scientificText (List.replicate (places + 1) '0') 0
  | .finite negative m q =>
    let (n, e) := rounded m q places
    signText negative ++ scientificText (digits n) e

end Decimal

/-- The text of a number in formulas, messages and results. -/
def numberText (x : Float) : String :=
  Decimal.text .plain x

end Formulae
