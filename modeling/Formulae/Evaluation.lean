import Formulae.Splitting

/-!
# Evaluation

The value of a tree in a scope, or the first symbol that means nothing. A call resolves its own
name before its arguments, and the first argument before the second; a bound call never asks for
its name.

The same resolution serves twice. While a formula is parsed, names that are already known are
replaced (`Scope.exprOfName`, `Scope.exprOfCall₁`, `Scope.exprOfCall₂`) and the others are kept
whole, so that a vocabulary given later can still bind them. At evaluation, every name has to mean
something (`evaluate`).

`observe` evaluates and keeps the log of it. It is a second definition and not the first one with
a log discarded, so that `evaluate` stays a plain recursion on the tree; `observe_fst` ties them.
-/

namespace Formulae

namespace Scope

/-! ### Meanings of names -/

/-- The number that a name means in a scope: its value, or its complete split under implied
multiplication. -/
def number? (scope : Scope) (name : String) : Option Float :=
  (scope.value? name).or (if scope.implied then scope.product? name else none)

/-- The split of the name of a call, where splitting is allowed. -/
def impliedFunction? (scope : Scope) (name : String) : Option ScaledFunction :=
  if scope.implied then scope.scaledFunction? name else none

/-- The function that the name of a call of one argument means in a scope. -/
def function? (scope : Scope) (name : String) : Option (Float → Float) :=
  (scope.unary? name).or ((scope.impliedFunction? name).map ScaledFunction.apply)

/-- The splits tried for a name that should mean a number. -/
def nameEvents (scope : Scope) (name : String) : List Event :=
  if scope.implied then scope.wholeValueEvents name else []

/-- The splits tried for the name of a call of one argument. -/
def callEvents (scope : Scope) (name : String) : List Event :=
  if scope.implied && (scope.unary? name).isNone then scope.scaledFunctionEvents name else []

/-! ### Names in a tree -/

/-- A name as a tree: the number it means, if it does. -/
def exprOfName (scope : Scope) (name : String) : Expr :=
  match scope.number? name with
  | some value => .constant value
  | none => .var name

/-- A call of one argument as a tree, bound if its name means something. A split call becomes the
product that it stands for. -/
def exprOfCall₁ (scope : Scope) (name : String) (argument : Expr) : Expr :=
  match scope.unary? name with
  | some f => .apply₁ name (some f) argument
  | none =>
    match scope.impliedFunction? name with
    | some scaled => scaled.expr argument
    | none => .apply₁ name none argument

/-- A call of two arguments as a tree, bound if its name means something. -/
def exprOfCall₂ (scope : Scope) (name : String) (first second : Expr) : Expr :=
  .apply₂ name (scope.binary? name) first second

end Scope

/-! ### Values of trees -/

/-- The value of a tree, or the first of its symbols that means nothing. -/
def evaluate (scope : Scope) : Expr → Except Unbound Float
  | .constant value => .ok value
  | .var name =>
    match scope.number? name with
    | some value => .ok value
    | none => .error ⟨⟨.variable, name⟩⟩
  | .call₁ f? name argument =>
    match f?.or (scope.function? name) with
    | some f => (evaluate scope argument).map f
    | none => .error ⟨⟨.unary, name⟩⟩
  | .call₂ f? name first second =>
    match f?.or (scope.binary? name) with
    | some f => do
      let x ← evaluate scope first
      let y ← evaluate scope second
      return f x y
    | none => .error ⟨⟨.binary, name⟩⟩

/-- The value of a tree together with the log of its evaluation. -/
def observe (scope : Scope) : Expr → Except Unbound Float × List Event
  | .constant value => (.ok value, [])
  | .var name =>
    (match scope.number? name with
      | some value => .ok value
      | none => .error ⟨⟨.variable, name⟩⟩, scope.nameEvents name)
  | .call₁ f? name argument =>
    let own := if f?.isSome then [] else scope.callEvents name
    match f?.or (scope.function? name) with
    | some f =>
      let (x?, log) := observe scope argument
      (x?.map f, own ++ log)
    | none => (.error ⟨⟨.unary, name⟩⟩, own)
  | .call₂ f? name first second =>
    match f?.or (scope.binary? name) with
    | some f =>
      match observe scope first with
      | (.ok x, log) =>
        let (y?, log') := observe scope second
        (y?.map (f x), log ++ log')
      | (.error u, log) => (.error u, log)
    | none => (.error ⟨⟨.binary, name⟩⟩, [])

/-- Keeping a log does not change the value. -/
theorem observe_fst (scope : Scope) (e : Expr) : (observe scope e).1 = evaluate scope e := by
  induction e with
  | constant => rfl
  | var => rfl
  | call₁ f? name argument ih =>
    simp only [observe, evaluate]
    split
    · simp only [← ih]
    · rfl
  | call₂ f? name first second ih₁ ih₂ =>
    simp only [observe, evaluate]
    split
    · rw [← ih₁, ← ih₂]
      rcases observe scope first with ⟨x | x, log⟩
      · rfl
      · rcases observe scope second with ⟨y | y, log'⟩ <;> rfl
    · rfl

end Formulae
