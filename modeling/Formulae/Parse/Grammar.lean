import Formulae.Parse.Combinators

/-!
# The grammar

```text
expression     := multiplicative (("+" | "-") multiplicative)*
multiplicative := exponent (("*" | "/") exponent)*
exponent       := operand ("^" operand)*
operand        := identifier "(" expression ")"
                | identifier "(" expression "," expression ")"
                | "(" expression ")"
                | identifier
                | number
                | "-" operand
```

The parenthesis of a call and the operand of a negation touch the token before them. Under implied
multiplication the operator of a multiplicative chain may be missing, except before a `-`.

The three tiers above operands are instances of one `chain`: as many pairs of an operator and an
operand as there are, then a fold in the direction of the tier. Each pair is optional, so a chain
ends in front of an operator whose operand does not match.

Recursion is on the nesting levels that are left. An operand at the limit rejects the text; above
it, its alternatives are given the parser of operands one level deeper (`operandBy`). How the
outcome of an operand is shared is a parameter there: `operand` shares through `onceBySite`, and
with nothing shared the same definition is the plain recursive-descent parser.
-/

namespace Formulae

/-! ### Chains -/

/-- A chain of operands of one tier. -/
structure Chain where
  /-- The tier under which the chain is logged. -/
  tier : Tier
  /-- The operators that continue the chain. -/
  operator? : Token → Option Operator
  associativity : Associativity
  /-- The operator between two operands that have none between them. -/
  implied : Option Operator

/-- The chain of a tier in a scope. Only products can be implied. -/
def Tier.chain (tier : Tier) (scope : Scope) : Chain where
  tier := tier
  operator? := tier.operator?
  associativity := tier.associativity
  implied := if tier = .multiplicative ∧ scope.implied then some .mul else none

/-- The fold `((e₀ op₁ e₁) op₂ …)`. -/
def foldLeft (first : Expr) (links : List (Operator × Expr)) : Expr :=
  links.foldl (fun lhs (op, rhs) ↦ op.combine lhs rhs) first

/-- The fold `e₀ op₁ (e₁ op₂ (…))`. -/
def foldRight (first : Expr) : List (Operator × Expr) → Expr
  | [] => first
  | (op, next) :: rest => op.combine first (foldRight next rest)

/-- A chain as one tree. -/
def Associativity.fold : Associativity → Expr → List (Operator × Expr) → Expr
  | .left => foldLeft
  | .right => foldRight

namespace Parser

variable (input : Input)

/-- The operator that continues a chain here. An implied one consumes nothing, and is not implied
before a `-` or at the end. -/
def continuation (chain : Chain) : Parser Operator := do
  let token? ← next? input
  match token?.bind chain.operator? with
  | some op =>
    let _ ← take? input
    return op
  | none =>
    note .operator
    match chain.implied with
    | some op =>
      if token? = none ∨ token? = some (.glyph .minus) then throw .noMatch else return op
    | none => throw .noMatch

/-- An operator and the operand after it. -/
def link (chain : Chain) (operand : Parser Expr) : Parser (Operator × Expr) := do
  let op ← continuation input chain
  let rhs ← operand
  return (op, rhs)

/-- The links of a chain after those found so far, which are given with the latest first. The
number of trials is bounded; a chain over an operand that consumes something never needs more trials
than there are tokens left, and one. -/
def links (chain : Chain) (operand : Parser Expr) :
    Nat → List (Operator × Expr) → Parser (List (Operator × Expr))
  | 0, found => return found.reverse
  | trials + 1, found => do
    match ← optionally (link input chain operand) with
    | none => return found.reverse
    | some (op, rhs) =>
      emit [.link chain.tier op rhs]
      links chain operand trials ((op, rhs) :: found)

/-- A chain of one tier over a parser of operands. -/
def chained (chain : Chain) (operand : Parser Expr) : Parser Expr := do
  let first ← operand
  emit [.firstOperand chain.tier first]
  let left := input.lexemes.size - (← get).position
  let rest ← links input chain operand (left + 1) []
  let result := chain.associativity.fold first rest
  emit [.folded chain.tier result]
  return result

section

variable (operand : Parser Expr)

/-! ### Tiers -/

/-- Operands under `^`. -/
def exponent : Parser Expr :=
  chained input (Tier.exponent.chain input.scope) operand

/-- Powers under `*` and `/`, written or implied. -/
def multiplicative : Parser Expr :=
  chained input (Tier.multiplicative.chain input.scope) (exponent input operand)

/-- Products under `+` and `-`. -/
def additive : Parser Expr :=
  chained input (Tier.additive.chain input.scope) (multiplicative input operand)

/-- A whole expression. -/
def expression : Parser Expr :=
  additive input operand

/-! ### Operands -/

/-- An identifier. -/
def identifier : Parser String := do
  match ← next? input with
  | some (.identifier name) =>
    let _ ← take? input
    return name
  | _ => miss .identifier

/-- A call. Its arguments are read once, and a comma after the first one decides their number. -/
def call : Parser Expr := do
  let name ← identifier input
  unless ← touching input do
    miss .openParen
  exactly input (.glyph .openParen) .openParen
  let first ← expression input operand
  match ← next? input with
  | some (.glyph .comma) =>
    let _ ← take? input
    let second ← expression input operand
    exactly input (.glyph .closeParen) .closeParen
    return input.scope.exprOfCall₂ name first second
  | some (.glyph .closeParen) =>
    let _ ← take? input
    emit (input.scope.callEvents name)
    return input.scope.exprOfCall₁ name first
  | _ =>
    note .comma
    miss .closeParen

/-- An expression in parentheses. -/
def parenthesized : Parser Expr := do
  exactly input (.glyph .openParen) .openParen
  let e ← expression input operand
  exactly input (.glyph .closeParen) .closeParen
  return e

/-- A name that is not called. -/
def name : Parser Expr := do
  let name ← identifier input
  emit (input.scope.nameEvents name)
  return input.scope.exprOfName name

/-- A number. -/
def number : Parser Expr := do
  match ← next? input with
  | some (.number value) =>
    let _ ← take? input
    return .constant value
  | _ => miss .number

/-- A negated operand, as a product with `-1`. -/
def negation : Parser Expr := do
  exactly input (.glyph .minus) .minus
  unless ← touching input do
    miss .touchingOperand
  return Operator.mul.combine (.constant (-1.0)) (← operand)

/-- Note that the body of an operand is begun here. -/
def begin : Parser Unit :=
  modify fun h ↦ { h with begun := h.site :: h.begun }

/-- The body of an operand: the first alternative that matches. -/
def alternatives : Parser Expr := do
  begin
  either (call input operand) <| either (parenthesized input operand) <|
    either (name input) <| either (number input) <| negation input operand

end

/-- An operand with the given number of nesting levels left, its outcome shared by `share`. -/
def operandBy (share : Parser Expr → Parser Expr) : Nat → Parser Expr
  | 0 => fun h ↦ share (oneDeeper input (throw .noMatch)) h
  | levels + 1 => fun h ↦ share (oneDeeper input (alternatives input (operandBy share levels))) h

/-- An operand. Its body is run at most once at every site. -/
def operand : Parser Expr :=
  fun h ↦ operandBy input onceBySite (input.limit - h.depth) h

/-- A text that is one expression and nothing else, over a parser of operands. -/
def complete (operand : Parser Expr) : Parser Expr := do
  let root ← expression input operand
  if ← atEnd input then
    return root
  else
    miss .endOfInput

end Parser

end Formulae
