import Formulae.Decimal.Exact
import Formulae.Text.Column

/-!
# Rejected texts

A text that is no formula is rejected at one place, with what was found there and what would have
been accepted instead. What would have been accepted is a list of **labels** in the order in which
they were first missed; the list is kept as data and only worded by `Rejection.message`.

A label names a kind of token, or a condition that a token did not meet. `Label.other` leaves room
for a caller's own words; `Label.ofText` reads the known words back to the known labels, so that
labels read from words are equal exactly when the words are.
-/

namespace Formulae

/-- What would have been accepted at a place. -/
inductive Label where
  | identifier
  | openParen
  | closeParen
  | comma
  | minus
  | number
  | operator
  /-- An operand with nothing between it and the sign before it. -/
  | touchingOperand
  | endOfInput
  | expression
  /-- A label in a caller's own words. -/
  | other (text : String)
deriving DecidableEq

namespace Label

/-- The words of a label. -/
def text : Label → String
  | identifier => "identifier"
  | openParen => "'('"
  | closeParen => "')'"
  | comma => "','"
  | minus => "'-'"
  | number => "number"
  | operator => "operator"
  | touchingOperand => "operand directly after '-'"
  | endOfInput => "end of input"
  | expression => "expression"
  | other text => text

/-- The labels with words of their own. -/
def known : List Label :=
  [identifier, openParen, closeParen, comma, minus, number, operator, touchingOperand, endOfInput,
    expression]

/-- The label with the given words. -/
def ofText (words : String) : Label :=
  (known.find? (·.text == words)).getD (other words)

/-- Wording the label read from some words gives the words back. -/
@[simp]
theorem text_ofText (words : String) : (ofText words).text = words := by
  unfold ofText
  cases h : known.find? (·.text == words) with
  | none => rfl
  | some label => simpa using List.find?_some h

/-- Labels in a sentence: `a`, `a or b`, `a, b or c`. -/
def join : List Label → String
  | [] => ""
  | [only] => only.text
  | [first, last] => first.text ++ " or " ++ last.text
  | first :: rest => first.text ++ ", " ++ join rest

end Label

/-- Why a text is no formula. -/
inductive Rejection where
  /-- A piece of text belongs to no token. -/
  | stray (text : String) (column : Nat)
  /-- A token stands where none of the expected ones would. -/
  | unexpected (found : String) (expected : List Label) (column : Nat)
  /-- The text ends where more was required. -/
  | incomplete (expected : List Label) (column : Nat)
  /-- Operands are nested deeper than allowed. -/
  | tooDeep (limit : Nat) (column : Nat)
deriving DecidableEq

namespace Rejection

/-- The column that a rejection points at. -/
def column : Rejection → Nat
  | stray _ column => column
  | unexpected _ _ column => column
  | incomplete _ column => column
  | tooDeep _ column => column

/-- What is wrong at that column. -/
def reason : Rejection → String
  | stray text _ => "Invalid input '" ++ text ++ "'."
  | unexpected found expected _ =>
    "Unexpected '" ++ found ++ "', expected " ++ Label.join expected ++ "."
  | incomplete expected _ => "Unexpected end of input, expected " ++ Label.join expected ++ "."
  | tooDeep limit _ =>
    "Expression nesting exceeds the limit of " ++ Decimal.naturalText limit ++ "."

/-- The report of a rejection in one line. -/
def message (r : Rejection) : String :=
  "Error at column " ++ Decimal.naturalText r.column ++ ": " ++ r.reason

/-- The report under the first line of the text, with a caret at the column. A column counts the
characters of the whole text, line breaks included. -/
def annotate (r : Rejection) (text : String) : String :=
  firstLine text ++ "\n" ++ String.ofList (List.replicate (r.column - 1) ' ') ++ "^\n" ++ r.message

end Rejection

end Formulae
