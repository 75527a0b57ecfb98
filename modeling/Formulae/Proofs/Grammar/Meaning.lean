import Formulae.Proofs.Grammar.Acceptance

/-!
# Meaning

What a text means, apart from when it is found out. A name may be known when a formula is parsed, or
only when it is evaluated, and it may be known at both times with different meanings; it may also be
known only as a product of names. The parser replaces the names that it knows and computes what it
can, so that a part of the work is done early and the rest late.

`Phrase.value` does all the work late: it keeps every name until its turn comes, asks the scope of
the parse first and the scope of the evaluation second, and computes nothing in advance. That a
formula has this value whatever its overrides are (`Settings.evaluate_eq_value`) says that resolving
and computing early is never visible, neither in a number nor in which symbol is reported.
-/

namespace Formulae

/-! ### Values of phrases -/

/-- The value of a phrase, or the first of its symbols that means nothing. A name means what it
means in the early scope, else what it means in the late one. -/
def Phrase.value (early late : Scope) : Phrase → Except Unbound Float
  | .number value => .ok value
  | .name word =>
    match (early.number? word).or (late.number? word) with
    | some value => .ok value
    | none => .error ⟨⟨.variable, word⟩⟩
  | .call₁ word argument =>
    match (early.function? word).or (late.function? word) with
    | some f => (argument.value early late).map f
    | none => .error ⟨⟨.unary, word⟩⟩
  | .call₂ word first second =>
    match (early.binary? word).or (late.binary? word) with
    | some f => do
      let x ← first.value early late
      let y ← second.value early late
      return f x y
    | none => .error ⟨⟨.binary, word⟩⟩
  | .parens inner => inner.value early late
  | .negative operand => (operand.value early late).map (-1.0 * ·)
  | .joined joint lhs rhs => do
    let x ← lhs.value early late
    let y ← rhs.value early late
    return joint.operator.apply x y

/-! ### Trees that compute early -/

section

variable {scope early late : Scope}

/-- A tree of two operands has the value of the operator, computed early or not. -/
theorem evaluate_combine (op : Operator) (lhs rhs : Expr) :
    evaluate scope (op.combine lhs rhs) = (do
      let x ← evaluate scope lhs
      let y ← evaluate scope rhs
      return op.apply x y) := by
  unfold Operator.combine
  split
  · rfl
  · rfl

/-- Computing a call early does not change its value. -/
theorem evaluate_apply₁ (name : String) (f? : Option (Float → Float)) (argument : Expr) :
    evaluate scope (.apply₁ name f? argument) = evaluate scope (.call₁ f? name argument) := by
  unfold Expr.apply₁
  split
  · rfl
  · rfl

/-- Neither does computing a call of two arguments. -/
theorem evaluate_apply₂ (name : String) (f? : Option (Float → Float → Float))
    (first second : Expr) :
    evaluate scope (.apply₂ name f? first second) =
      evaluate scope (.call₂ f? name first second) := by
  unfold Expr.apply₂
  split
  · rfl
  · rfl

/-- The product that a split call stands for has the value of the split. -/
theorem evaluate_scaledFunction (scaled : ScaledFunction) (argument : Expr) :
    evaluate scope (scaled.expr argument) = (evaluate scope argument).map scaled.apply := by
  obtain ⟨factor, _ | ⟨function, f⟩⟩ := scaled
  · rw [ScaledFunction.expr, evaluate_combine]
    rcases evaluate scope argument with u | x <;> rfl
  · rw [ScaledFunction.expr, evaluate_combine, evaluate_apply₁]
    dsimp only [evaluate, Option.some_or]
    rcases evaluate scope argument with u | x <;> rfl

/-! ### Names that are resolved early -/

theorem evaluate_exprOfName (word : String) :
    evaluate late (early.exprOfName word) = (Phrase.name word).value early late := by
  rw [Scope.exprOfName, Phrase.value]
  rcases early.number? word with _ | value
  · rfl
  · rfl

theorem evaluate_exprOfCall₁ {word : String} {argument : Phrase} {e : Expr}
    (hargument : evaluate late e = argument.value early late) :
    evaluate late (early.exprOfCall₁ word e) = (Phrase.call₁ word argument).value early late := by
  rw [Scope.exprOfCall₁, Phrase.value, Scope.function?, ← hargument]
  rcases early.unary? word with _ | f
  · rcases early.impliedFunction? word with _ | scaled
    · -- the name is left to the late scope
      exact (evaluate_apply₁ word none e).trans rfl
    · exact evaluate_scaledFunction scaled e
  · exact (evaluate_apply₁ word (some f) e).trans rfl

theorem evaluate_exprOfCall₂ {word : String} {first second : Phrase} {e e' : Expr}
    (hfirst : evaluate late e = first.value early late)
    (hsecond : evaluate late e' = second.value early late) :
    evaluate late (early.exprOfCall₂ word e e') =
      (Phrase.call₂ word first second).value early late := by
  rw [Scope.exprOfCall₂, evaluate_apply₂, evaluate, hfirst, hsecond]
  rfl

/-- The tree of a phrase has the value of the phrase. -/
theorem Phrase.evaluate_expr (phrase : Phrase) :
    evaluate late (phrase.expr early) = phrase.value early late := by
  induction phrase with
  | number => rfl
  | name word => exact evaluate_exprOfName word
  | call₁ _ _ ih => exact evaluate_exprOfCall₁ ih
  | call₂ _ _ _ ih₁ ih₂ => exact evaluate_exprOfCall₂ ih₁ ih₂
  | parens _ ih => exact ih
  | negative operand ih =>
    rw [expr, value, evaluate_combine, ih]
    rcases operand.value early late with u | x <;> rfl
  | joined _ _ _ ih₁ ih₂ => rw [expr, value, evaluate_combine, ih₁, ih₂]

end

/-! ### Values of texts -/

namespace Settings

variable {settings : Settings} {text : String} {formula : Formula}

/-- **Parsing early changes no meaning.** A formula has, under all overrides, the value of the
phrase that its text derives. -/
theorem evaluate_eq_value (hparse : settings.parse text = .ok formula) :
    ∃ lexemes phrase, scan text = .ok lexemes ∧
      Derives (row lexemes) settings.implied (.tier .additive) 0 lexemes.length phrase ∧
      ∀ overrides, formula.evaluate overrides =
        phrase.value settings.scope ⟨overrides, settings.vocabulary, settings.implied⟩ := by
  obtain ⟨lexemes, phrase, hscan, hphrase, -, rfl⟩ := parse_eq_ok_iff.1 hparse
  exact ⟨lexemes, phrase, hscan, hphrase, fun overrides ↦ phrase.evaluate_expr⟩

/-- A function and two variables that only overrides can give a meaning to. -/
theorem evaluate_call_beside_name :
    parse { implied := true } "g(x)y" = .ok
      ⟨.call₂ (some Operator.mul.apply) "*" (.call₁ none "g" (.var "x")) (.var "y"), true, {}⟩ ∧
    ∃ lexemes phrase, scan "g(x)y" = .ok lexemes ∧
      Derives (row lexemes) true (.tier .additive) 0 lexemes.length phrase ∧
      ∀ overrides, Formula.evaluate ⟨.call₂ (some Operator.mul.apply) "*"
          (.call₁ none "g" (.var "x")) (.var "y"), true, {}⟩ overrides =
        phrase.value { implied := true } ⟨overrides, {}, true⟩ := by
  have hparse : parse { implied := true } "g(x)y" = .ok
      ⟨.call₂ (some Operator.mul.apply) "*" (.call₁ none "g" (.var "x")) (.var "y"), true, {}⟩ :=
    parse_eq_ok_iff.2 ⟨_, _, scan_callBesideName, derives_callBesideName, by decide,
      by with_unfolding_all rfl⟩
  exact ⟨hparse, evaluate_eq_value hparse⟩

end Settings

end Formulae
