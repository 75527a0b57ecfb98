import Formulae.Numeric

/-!
# Standard names

The names every formula may use: five constants under their Latin and Greek names, the elementary
functions of one argument, and five functions of two. They are consulted last, so a caller's table
may give any of them another meaning.
-/

namespace Formulae

/-- A table gives some names a meaning. -/
abbrev Table (α : Type) := String → Option α

namespace Standard

open Numeric

/-- The constants. -/
def value? : Table Float
  | "pi" => some pi
  | "π" => some pi
  | "tau" => some tau
  | "τ" => some tau
  | "e" => some e
  | _ => none

/-- The functions of one argument. -/
def unary? : Table (Float → Float)
  | "sin" => some Float.sin
  | "cos" => some Float.cos
  | "tan" => some Float.tan
  | "asin" => some Float.asin
  | "acos" => some Float.acos
  | "atan" => some Float.atan
  | "sinh" => some Float.sinh
  | "cosh" => some Float.cosh
  | "tanh" => some Float.tanh
  | "asinh" => some Float.asinh
  | "acosh" => some Float.acosh
  | "atanh" => some Float.atanh
  | "log10" => some Float.log10
  | "ln" => some Float.log
  | "loge" => some Float.log
  | "log2" => some Float.log2
  | "exp" => some Float.exp
  | "ceil" => some Float.ceil
  | "floor" => some Float.floor
  | "round" => some Float.round
  | "trunc" => some truncate
  | "sqrt" => some Float.sqrt
  | "√" => some Float.sqrt
  | "cbrt" => some cubeRoot
  | "abs" => some Float.abs
  | "sgn" => some sign
  | "factorial" => some factorial
  | _ => none

/-- The functions of two arguments. -/
def binary? : Table (Float → Float → Float)
  | "atan2" => some Float.atan2
  | "hypot" => some hypotenuse
  | "pow" => some power
  | "min" => some least
  | "max" => some greatest
  | _ => none

end Standard

end Formulae
