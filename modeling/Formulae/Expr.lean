import Formulae.Decimal.Layout
import Formulae.Operator
import Formulae.Text.Quoted

/-!
# Expressions

The tree of a formula: numbers, names and calls. A call may be **bound**, when its function was
already known as the tree was built, or left to be resolved by name at evaluation. An operator
that could not be computed is a bound call of two arguments under the operator's symbol; there is
no other representation of operators.

Trees are folded as they are built. The three builders `Operator.combine`, `Expr.apply₁` and
`Expr.apply₂` are the only way the library makes a call, and each turns a bound call of constants
into a constant. The constructors remain available to build a tree that is not folded.
-/

namespace Formulae

/-- An expression tree. -/
inductive Expr where
  /-- A known number. -/
  | constant (value : Float)
  /-- A name to be resolved at evaluation. -/
  | var (name : String)
  /-- A call of one argument, with its function if it was known. -/
  | call₁ (f? : Option (Float → Float)) (name : String) (argument : Expr)
  /-- A call of two arguments, with its function if it was known. -/
  | call₂ (f? : Option (Float → Float → Float)) (name : String) (first second : Expr)
deriving Inhabited

/-! ### Building trees -/

/-- Two operands under an operator: their value if both are known, a bound call otherwise. -/
def Operator.combine (op : Operator) : Expr → Expr → Expr
  | .constant x, .constant y => .constant (op.apply x y)
  | lhs, rhs => .call₂ (some op.apply) op.symbol lhs rhs

namespace Expr

/-- A call of one argument: its value if function and argument are known. -/
def apply₁ (name : String) : Option (Float → Float) → Expr → Expr
  | some f, constant x => constant (f x)
  | f?, argument => call₁ f? name argument

/-- A call of two arguments: its value if function and arguments are known. -/
def apply₂ (name : String) : Option (Float → Float → Float) → Expr → Expr → Expr
  | some f, constant x, constant y => constant (f x y)
  | f?, first, second => call₂ f? name first second

/-- The number a tree consists of, if it is a single one. -/
def constant? : Expr → Option Float
  | constant value => some value
  | _ => none

@[simp]
theorem constant?_eq_some_iff {e : Expr} {value : Float} :
    e.constant? = some value ↔ e = constant value := by
  cases e <;> simp [constant?]

/-- Whether a tree is a single number. -/
def isConstant (e : Expr) : Bool :=
  e.constant?.isSome

/-! ### Text -/

/-- A tree as a formula: operators between their operands and always in parentheses, other calls in
front of their arguments. -/
def text : Expr → String
  | constant value => numberText value
  | var name => name
  | call₁ _ name argument => name ++ "(" ++ argument.text ++ ")"
  | call₂ _ name first second =>
    if (Operator.ofSymbol? name).isSome then
      "(" ++ first.text ++ " " ++ name ++ " " ++ second.text ++ ")"
    else name ++ "(" ++ first.text ++ ", " ++ second.text ++ ")"

/-- A tree with its structure shown. -/
def inspect : Expr → String
  | constant value => "Constant(" ++ Decimal.text .marked value ++ ")"
  | var name => "Variable(" ++ quoted name ++ ")"
  | call₁ f? name argument =>
    "UnaryCall \x7b resolved: " ++ flagText f?.isSome ++ ", name: " ++ quoted name ++
      ", arg: " ++ argument.inspect ++ " \x7d"
  | call₂ f? name first second =>
    "BinaryCall \x7b resolved: " ++ flagText f?.isSome ++ ", name: " ++ quoted name ++
      ", arg1: " ++ first.inspect ++ ", arg2: " ++ second.inspect ++ " \x7d"

end Expr

end Formulae
