import Formulae.Expr

/-!
# Factors of names

A name written without a space may stand for a product: `2pir` ends in a name that can be read as
`pi · r`. Such a name is taken apart one factor at a time, and each factor stands at one of its
ends, so what comes out is a chain of `Factors` with one innermost piece.

The chain keeps the pieces of the name and not only their values. So it says at once what was
taken apart (`Factors.word`) and which product it stands for (`Factors.expr`).
-/

namespace Formulae

/-- A name taken apart, one factor at one end at a time. -/
inductive Factors where
  /-- A piece that means nothing and is left as it is. -/
  | leftover (part : List Char)
  /-- A piece with a value. -/
  | known (part : List Char) (value : Float)
  /-- A piece with a value in front of the others. -/
  | front (part : List Char) (value : Float) (rest : Factors)
  /-- A piece with a value behind the others. -/
  | back (rest : Factors) (part : List Char) (value : Float)

namespace Factors

/-- The name that was taken apart. -/
def word : Factors → List Char
  | leftover part => part
  | known part _ => part
  | front part _ rest => part ++ rest.word
  | back rest part _ => rest.word ++ part

/-- The product that the pieces stand for. -/
def expr : Factors → Expr
  | leftover part => .var (String.ofList part)
  | known _ value => .constant value
  | front _ value rest => Operator.mul.combine (.constant value) rest.expr
  | back rest _ value => Operator.mul.combine rest.expr (.constant value)

end Factors

end Formulae
