import Formulae.Numeric
import Formulae.Token

/-!
# Operators

The five infix operators and what they do to numbers. An operator is also the name of a call that
could not be computed yet, so it can be read back from its symbol (`ofSymbol?`); the second
spellings of `*` and `/` are spellings of glyphs and name no call.

Operators fall into three tiers of precedence. A tier knows which glyphs are its operators and in
which direction a chain of them is folded.
-/

namespace Formulae

/-- The infix operators. -/
inductive Operator where
  | add
  | sub
  | mul
  | div
  | pow
deriving DecidableEq

namespace Operator

/-- The operator applied to two numbers. -/
def apply : Operator → Float → Float → Float
  | add, x, y => x + y
  | sub, x, y => x - y
  | mul, x, y => x * y
  | div, x, y => x / y
  | pow, x, y => Numeric.power x y

/-- The name of the operator as a call. -/
def symbol : Operator → String
  | add => "+"
  | sub => "-"
  | mul => "*"
  | div => "/"
  | pow => "^"

/-- The operator a call name stands for. -/
def ofSymbol? : String → Option Operator
  | "+" => some add
  | "-" => some sub
  | "*" => some mul
  | "/" => some div
  | "^" => some pow
  | _ => none

@[simp]
theorem ofSymbol?_symbol (op : Operator) : ofSymbol? op.symbol = some op := by
  cases op <;> rfl

/-- A call name stands for an operator exactly when it is that operator's symbol. -/
theorem ofSymbol?_eq_some_iff {name : String} {op : Operator} :
    ofSymbol? name = some op ↔ name = op.symbol := by
  refine ⟨fun h ↦ ?_, fun h ↦ h ▸ ofSymbol?_symbol op⟩
  unfold ofSymbol? at h
  split at h <;> cases h <;> rfl

end Operator

/-- The direction in which a chain of operators of one tier is folded. -/
inductive Associativity where
  /-- `a - b - c` is `(a - b) - c`. -/
  | left
  /-- `a ^ b ^ c` is `a ^ (b ^ c)`. -/
  | right
deriving DecidableEq

/-- The tiers of precedence, from the loosest. -/
inductive Tier where
  | additive
  | multiplicative
  | exponent
deriving DecidableEq

namespace Tier

/-- The name of a tier in the log. -/
def name : Tier → String
  | additive => "additive"
  | multiplicative => "multiplicative"
  | exponent => "exponent"

/-- The operator of the tier that a token stands for. -/
def operator? : Tier → Token → Option Operator
  | additive, .glyph .plus => some .add
  | additive, .glyph .minus => some .sub
  | multiplicative, .glyph .star => some .mul
  | multiplicative, .glyph .slash => some .div
  | exponent, .glyph .caret => some .pow
  | _, _ => none

/-- The direction in which chains of the tier are folded. -/
def associativity : Tier → Associativity
  | exponent => .right
  | _ => .left

end Tier

end Formulae
