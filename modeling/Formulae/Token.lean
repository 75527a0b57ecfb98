/-!
# Tokens

A formula is written with three kinds of token: numbers, identifiers, and eight glyphs. Two of the
glyphs have a second spelling, `×` and `÷`; the token does not remember which was used, so that
nothing after the scanner can depend on it.

A number token holds a value and never a sign. Its value is therefore neither negative nor the
float that is no number, and equality of tokens can be the equality of the values themselves.
-/

namespace Formulae

/-- The punctuation of formulas. -/
inductive Glyph where
  | plus
  | minus
  | star
  | slash
  | caret
  | openParen
  | closeParen
  | comma
deriving DecidableEq

namespace Glyph

/-- The glyph a character stands for. -/
def ofChar? : Char → Option Glyph
  | '+' => some plus
  | '-' => some minus
  | '*' => some star
  | '×' => some star
  | '/' => some slash
  | '÷' => some slash
  | '^' => some caret
  | '(' => some openParen
  | ')' => some closeParen
  | ',' => some comma
  | _ => none

/-- The usual spelling of a glyph. -/
def char : Glyph → Char
  | plus => '+'
  | minus => '-'
  | star => '*'
  | slash => '/'
  | caret => '^'
  | openParen => '('
  | closeParen => ')'
  | comma => ','

@[simp]
theorem ofChar?_char (g : Glyph) : ofChar? g.char = some g := by
  cases g <;> rfl

end Glyph

/-- A unit of the grammar. -/
inductive Token where
  /-- A number, without a sign. -/
  | number (value : Float)
  /-- A name of a variable or function. -/
  | identifier (name : String)
  /-- An operator or a punctuation mark. -/
  | glyph (glyph : Glyph)
deriving DecidableEq

end Formulae
