/-!
# Reading a decimal

A number is read from an optional sign and either a **numeral** or one of the words for the values
that have none. A numeral is digits with at most one point among them, before, after or between
them, followed by an optional exponent; at least one digit must stand before the exponent.

The value is the float nearest to the numeral, however many digits it has and however large its
exponent is: a magnitude out of range becomes an infinity or a zero, never a failure.
-/

namespace Formulae.Decimal

/-- Why a text is no number. -/
inductive ReadError where
  /-- There is nothing to read. -/
  | empty
  /-- The text has some other form. -/
  | invalid
deriving DecidableEq

/-- What is reported about a text that is no number. -/
def ReadError.message : ReadError → String
  | .empty => "cannot parse float from empty string"
  | .invalid => "invalid float literal"

/-- The natural number that a run of digits denotes. -/
def natural (ds : List Char) : Nat :=
  Nat.ofDigitChars 10 ds 0

/-- Reading the digits of a number gives the number back. -/
@[simp]
theorem natural_toDigits (n : Nat) : natural (Nat.toDigits 10 n) = n :=
  Nat.ofDigitChars_ten_toDigits

/-- An exponent without its mark: an optional sign and at least one digit, and nothing else. -/
def exponent? (cs : List Char) : Option Int :=
  let (negative, ds) := match cs with
    | '-' :: ds => (true, ds)
    | '+' :: ds => (false, ds)
    | ds => (false, ds)
  if ds.isEmpty || !ds.all Char.isDigit then none
  else some (if negative then -natural ds else natural ds)

/-- The float nearest to `n · 10 ^ e`. -/
def nearest (n : Nat) (e : Int) : Float :=
  Float.ofScientific n (e < 0) e.natAbs

/-- The value of an unsigned numeral. -/
def numeral? (cs : List Char) : Option Float :=
  let whole := cs.takeWhile Char.isDigit
  let afterWhole := cs.dropWhile Char.isDigit
  let (fraction, tail) := match afterWhole with
    | '.' :: rest => (rest.takeWhile Char.isDigit, rest.dropWhile Char.isDigit)
    | rest => ([], rest)
  if whole.isEmpty && fraction.isEmpty then none
  else
    let shifted (e : Int) := nearest (natural (whole ++ fraction)) (e - fraction.length)
    match tail with
    | [] => some (shifted 0)
    | mark :: rest => if mark = 'e' ∨ mark = 'E' then (exponent? rest).map shifted else none

/-- The value of a word in lower case. -/
def word? (cs : List Char) : Option Float :=
  if cs = "inf".toList ∨ cs = "infinity".toList then some (1.0 / 0.0)
  else if cs = "nan".toList then some (0.0 / 0.0)
  else none

/-- The value of a text without its sign. Words are read in either case. -/
def magnitude? (cs : List Char) : Option Float :=
  (numeral? cs).or (word? (cs.map Char.toLower))

/-- The number written in a list of characters. -/
def read (cs : List Char) : Except ReadError Float :=
  let value := match cs with
    | '-' :: rest => (magnitude? rest).map (- ·)
    | '+' :: rest => magnitude? rest
    | rest => magnitude? rest
  match value with
  | some x => .ok x
  | none => .error (if cs.isEmpty then .empty else .invalid)

/-- Nothing is the only text whose fault is to be empty. -/
theorem read_eq_empty_iff {cs : List Char} : read cs = .error .empty ↔ cs = [] := by
  constructor
  · intro h
    simp only [read] at h
    split at h
    · cases h
    · simpa using h
  · rintro rfl
    rfl

end Formulae.Decimal
