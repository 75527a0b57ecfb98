import Formulae.Proofs.Grammar.Meaning
import Formulae.Proofs.Names.Gaps

/-!
# Folding

A parsed tree is **folded**: no bound call in it has only constants for arguments, since each of the
builders computes such a call at once. The calls that are left in a folded tree wait for a name, in
front of them or somewhere in their arguments, so a folded tree without open names is a constant.

Folding loses no name either. The open names of the tree of a phrase are those that the phrase uses,
each in its role, and that mean nothing in the scope of the parse (`Phrase.mem_symbols_expr`). A
name that stands for a product is known as a whole or open as a whole; none of its parts is ever
open.

An evaluation without overrides looks names up in the very scope of the parse, so it stops at any
name that the parse left open.
-/

namespace Formulae

/-! ### Folded trees -/

/-- No bound call in a tree has only constants for arguments. -/
def Expr.Folded : Expr → Prop
  | constant _ => True
  | var _ => True
  | call₁ f? _ argument => argument.Folded ∧ ¬ (f?.isSome ∧ argument.isConstant)
  | call₂ f? _ first second =>
    first.Folded ∧ second.Folded ∧ ¬ (f?.isSome ∧ first.isConstant ∧ second.isConstant)

/-- Two operands under an operator are a bound call. -/
theorem Operator.combine_eq_apply₂ (op : Operator) (lhs rhs : Expr) :
    op.combine lhs rhs = .apply₂ op.symbol (some op.apply) lhs rhs := by
  cases lhs with
  | constant x => cases rhs <;> rfl
  | _ => rfl

namespace Expr

variable {name : String} {first second argument : Expr}

/-- The test for a constant finds all of them. -/
theorem isConstant_iff {e : Expr} : e.isConstant ↔ ∃ value, e = constant value := by
  rw [isConstant, Option.isSome_iff_exists]
  exact exists_congr fun value ↦ constant?_eq_some_iff

/-- A bound call of a constant is computed, so what is built is folded. -/
theorem folded_apply₁ {f? : Option (Float → Float)} (hargument : argument.Folded) :
    (apply₁ name f? argument).Folded := by
  unfold apply₁
  split
  · trivial
  · next hopen =>
    refine ⟨hargument, ?_⟩
    rintro ⟨hf, hconstant⟩
    obtain ⟨f, rfl⟩ := Option.isSome_iff_exists.1 hf
    obtain ⟨x, rfl⟩ := isConstant_iff.1 hconstant
    exact hopen f x rfl rfl

/-- A bound call is computed only if both of its arguments are constants. -/
theorem folded_apply₂ {f? : Option (Float → Float → Float)} (hfirst : first.Folded)
    (hsecond : second.Folded) : (apply₂ name f? first second).Folded := by
  unfold apply₂
  split
  · trivial
  · next hopen =>
    refine ⟨hfirst, hsecond, ?_⟩
    rintro ⟨hf, hx, hy⟩
    obtain ⟨f, rfl⟩ := Option.isSome_iff_exists.1 hf
    obtain ⟨x, rfl⟩ := isConstant_iff.1 hx
    obtain ⟨y, rfl⟩ := isConstant_iff.1 hy
    exact hopen f x y rfl rfl rfl

theorem folded_combine {op : Operator} (hfirst : first.Folded) (hsecond : second.Folded) :
    (op.combine first second).Folded :=
  op.combine_eq_apply₂ first second ▸ folded_apply₂ hfirst hsecond

/-- A scaled function computes both its product and its call early. -/
theorem folded_scaledFunction {scaled : ScaledFunction} (hargument : argument.Folded) :
    (scaled.expr argument).Folded := by
  obtain ⟨factor, - | ⟨function, f⟩⟩ := scaled
  · exact folded_combine trivial hargument
  · exact folded_combine trivial (folded_apply₁ hargument)

/-- A folded tree without symbols is a constant. -/
theorem Folded.exists_eq_constant {e : Expr} (h : e.Folded) (hsymbols : e.symbols = []) :
    ∃ value, e = constant value := by
  induction e with
  | constant value => exact ⟨value, rfl⟩
  | var name => cases hsymbols
  | call₁ f? name argument ih =>
    rcases f? with - | f
    · cases hsymbols
    · -- the argument would be a constant, and the call computed
      obtain ⟨hargument, hopen⟩ := h
      exact absurd ⟨rfl, isConstant_iff.2 (ih hargument hsymbols)⟩ hopen
  | call₂ f? name first second ih₁ ih₂ =>
    rcases f? with - | f
    · cases hsymbols
    · obtain ⟨hfirst, hsecond, hopen⟩ := h
      rw [symbols_call₂_some, List.append_eq_nil_iff] at hsymbols
      exact absurd ⟨rfl, isConstant_iff.2 (ih₁ hfirst hsymbols.1),
        isConstant_iff.2 (ih₂ hsecond hsymbols.2)⟩ hopen

/-- A tree is folded and leaves nothing open only if it is a constant. -/
theorem Folded.exists_eq_constant_iff {e : Expr} (h : e.Folded) :
    (∃ value, e = constant value) ↔ e.symbols = [] := by
  refine ⟨?_, h.exists_eq_constant⟩
  rintro ⟨value, rfl⟩
  rfl

/-! ### Symbols of trees that compute early -/

/-- Computing a call loses no symbol, since a constant has none. -/
@[simp] theorem symbols_apply₁_some (f : Float → Float) :
    (apply₁ name (some f) argument).symbols = argument.symbols := by
  unfold apply₁
  split
  · rfl
  · rfl

@[simp] theorem symbols_apply₂_none : (apply₂ name none first second).symbols =
    ⟨.binary, name⟩ :: (first.symbols ++ second.symbols) :=
  symbols_call₂_none name first second

@[simp] theorem symbols_apply₂_some (f : Float → Float → Float) :
    (apply₂ name (some f) first second).symbols = first.symbols ++ second.symbols := by
  unfold apply₂
  split
  · rfl
  · exact symbols_call₂_some name _ _ f

@[simp] theorem symbols_combine (op : Operator) :
    (op.combine first second).symbols = first.symbols ++ second.symbols := by
  rw [op.combine_eq_apply₂, symbols_apply₂_some]

/-- The factor is a number, and the function was found, so only the argument has symbols. -/
@[simp] theorem symbols_scaledFunction (scaled : ScaledFunction) :
    (scaled.expr argument).symbols = argument.symbols := by
  obtain ⟨factor, - | ⟨function, f⟩⟩ := scaled
  · rw [ScaledFunction.expr, symbols_combine, symbols_constant, List.nil_append]
  · rw [ScaledFunction.expr, symbols_combine, symbols_constant, List.nil_append]
    exact symbols_apply₁_some f

end Expr

/-! ### Phrases -/

/-- The symbols that a phrase uses, in the order of evaluation. -/
def Phrase.symbols : Phrase → List Symbol
  | number _ => []
  | name word => [⟨.variable, word⟩]
  | call₁ word argument => ⟨.unary, word⟩ :: argument.symbols
  | call₂ word first second => ⟨.binary, word⟩ :: (first.symbols ++ second.symbols)
  | parens inner => inner.symbols
  | negative operand => operand.symbols
  | joined _ lhs rhs => lhs.symbols ++ rhs.symbols

section

variable {scope : Scope} {s : Symbol}

/-- A name is a constant or stays a name. -/
theorem Scope.folded_exprOfName (word : String) : (scope.exprOfName word).Folded := by
  rw [Scope.exprOfName]
  split
  · trivial
  · trivial

theorem Scope.folded_exprOfCall₁ {word : String} {argument : Expr} (hargument : argument.Folded) :
    (scope.exprOfCall₁ word argument).Folded := by
  rw [Scope.exprOfCall₁]
  split
  · exact Expr.folded_apply₁ hargument
  · split
    · exact Expr.folded_scaledFunction hargument
    · exact Expr.folded_apply₁ hargument

/-- The tree of a phrase is folded, whatever it is built of. -/
theorem Phrase.folded_expr (phrase : Phrase) : (phrase.expr scope).Folded := by
  induction phrase with
  | number => trivial
  | name word => exact Scope.folded_exprOfName word
  | call₁ _ _ ih => exact Scope.folded_exprOfCall₁ ih
  | call₂ _ _ _ ih₁ ih₂ => exact Expr.folded_apply₂ ih₁ ih₂
  | parens _ ih => exact ih
  | negative _ ih => exact Expr.folded_combine trivial ih
  | joined _ _ _ ih₁ ih₂ => exact Expr.folded_combine ih₁ ih₂

/-- A name is open if it means nothing, and else it leaves nothing open. -/
theorem Scope.mem_symbols_exprOfName {word : String} :
    s ∈ (scope.exprOfName word).symbols ↔ s = ⟨.variable, word⟩ ∧ ¬ scope.Resolves s := by
  rw [Scope.exprOfName]
  rcases hword : scope.number? word with - | value
  · have hopen := Scope.not_resolves_variable hword
    constructor
    · intro hs
      obtain rfl := List.mem_singleton.1 hs
      exact ⟨rfl, hopen⟩
    · rintro ⟨rfl, -⟩
      exact List.mem_singleton_self _
  · have hknown := Scope.resolves_variable_iff.2 ⟨value, hword⟩
    refine ⟨fun hs ↦ absurd hs List.not_mem_nil, ?_⟩
    rintro ⟨rfl, hopen⟩
    exact absurd hknown hopen

/-- A call is open if its name means nothing, and else it leaves nothing open but what its argument
does. -/
theorem Scope.mem_symbols_exprOfCall₁ {word : String} {argument : Expr} :
    s ∈ (scope.exprOfCall₁ word argument).symbols ↔
      s = ⟨.unary, word⟩ ∧ ¬ scope.Resolves s ∨ s ∈ argument.symbols := by
  have hsymbols : (scope.exprOfCall₁ word argument).symbols =
      if (scope.function? word).isSome then argument.symbols
      else ⟨.unary, word⟩ :: argument.symbols := by
    rw [Scope.exprOfCall₁, Scope.function?]
    rcases scope.unary? word with - | f
    · rcases scope.impliedFunction? word with - | scaled
      · rfl
      · exact Expr.symbols_scaledFunction scaled
    · exact Expr.symbols_apply₁_some f
  rw [hsymbols]
  rcases hword : scope.function? word with - | f
  · have hopen := Scope.not_resolves_unary hword
    rw [if_neg (by simp), List.mem_cons]
    exact or_congr_left ⟨fun hs ↦ ⟨hs, hs ▸ hopen⟩, And.left⟩
  · have hknown := Scope.resolves_unary_iff.2 ⟨f, hword⟩
    rw [Option.isSome_some, if_pos rfl, or_iff_right]
    rintro ⟨rfl, hopen⟩
    exact hopen hknown

/-- A call of two arguments is never split, and is open only if its name is not known. -/
theorem Scope.mem_symbols_exprOfCall₂ {word : String} {first second : Expr} :
    s ∈ (scope.exprOfCall₂ word first second).symbols ↔
      s = ⟨.binary, word⟩ ∧ ¬ scope.Resolves s ∨ s ∈ first.symbols ++ second.symbols := by
  rw [Scope.exprOfCall₂]
  rcases hword : scope.binary? word with - | f
  · have hopen := Scope.not_resolves_binary hword
    rw [Expr.symbols_apply₂_none, List.mem_cons]
    exact or_congr_left ⟨fun hs ↦ ⟨hs, hs ▸ hopen⟩, And.left⟩
  · have hknown := Scope.resolves_binary_iff.2 ⟨f, hword⟩
    rw [Expr.symbols_apply₂_some, or_iff_right]
    rintro ⟨rfl, hopen⟩
    exact hopen hknown

/-- The tree of a phrase leaves open what the phrase uses and the scope does not know. -/
theorem Phrase.mem_symbols_expr (phrase : Phrase) :
    s ∈ (phrase.expr scope).symbols ↔ s ∈ phrase.symbols ∧ ¬ scope.Resolves s := by
  induction phrase with
  | number => exact ⟨nofun, nofun⟩
  | name word => rw [expr, Scope.mem_symbols_exprOfName, symbols, List.mem_singleton]
  | call₁ word argument ih =>
    rw [expr, Scope.mem_symbols_exprOfCall₁, ih, symbols, List.mem_cons, or_and_right]
  | call₂ word first second ih₁ ih₂ =>
    rw [expr, Scope.mem_symbols_exprOfCall₂, List.mem_append, ih₁, ih₂, symbols, List.mem_cons,
      List.mem_append, or_and_right, or_and_right]
  | parens inner ih => exact ih
  | negative operand ih =>
    rw [expr, Expr.symbols_combine, Expr.symbols_constant, List.nil_append, ih, symbols]
  | joined joint lhs rhs ih₁ ih₂ =>
    rw [expr, Expr.symbols_combine, List.mem_append, ih₁, ih₂, symbols, List.mem_append,
      or_and_right]

end

/-! ### Formulas -/

/-- The three sets are empty if no name is in the set of its role. -/
theorem OpenNames.isEmpty_iff {names : OpenNames} :
    names.isEmpty ↔ ∀ s : Symbol, ¬ s.name ∈ names.ofRole s.role := by
  simp only [isEmpty, Bool.and_eq_true, Std.TreeSet.isEmpty_iff_forall_not_mem]
  constructor
  · rintro ⟨⟨hvariables, hunary⟩, hbinary⟩ ⟨- | - | -, name⟩
    · exact hvariables name
    · exact hunary name
    · exact hbinary name
  · intro h
    exact ⟨⟨fun name ↦ h ⟨.variable, name⟩, fun name ↦ h ⟨.unary, name⟩⟩,
      fun name ↦ h ⟨.binary, name⟩⟩

/-- No name is open exactly when a tree has no symbols. -/
theorem Expr.isEmpty_openNames_iff {e : Expr} : e.openNames.isEmpty ↔ e.symbols = [] := by
  rw [OpenNames.isEmpty_iff, List.eq_nil_iff_forall_not_mem]
  exact forall_congr' fun s ↦ not_congr Expr.mem_openNames_iff

namespace Settings

variable {settings : Settings} {text : String} {formula : Formula}

/-- **Folding is complete and loses no name.** No bound call of a parsed tree has only constants for
arguments. A name is open in a role exactly when the text uses it in that role and it means nothing
in the scope of the parse. The tree is a constant exactly when no name is open, and exactly when it
has a value without overrides, which is that constant. -/
theorem folded_of_parse (hparse : settings.parse text = .ok formula) :
    formula.root.Folded ∧
    (∃ lexemes phrase, scan text = .ok lexemes ∧
      Derives (row lexemes) settings.implied (.tier .additive) 0 lexemes.length phrase ∧
      ∀ s : Symbol, s.name ∈ formula.openNames.ofRole s.role ↔
        s ∈ phrase.symbols ∧ ¬ settings.scope.Resolves s) ∧
    ((∃ value, formula.root = .constant value) ↔ formula.openNames.isEmpty) ∧
    ∀ value, formula.root = .constant value ↔ formula.evaluate {} = .ok value := by
  obtain ⟨lexemes, phrase, hscan, hphrase, -, rfl⟩ := parse_eq_ok_iff.1 hparse
  have hfolded : (phrase.expr settings.scope).Folded := phrase.folded_expr
  have haccounts := accounts_evaluate settings.scope (phrase.expr settings.scope)
  refine ⟨hfolded, ⟨lexemes, phrase, hscan, hphrase, fun s ↦ ?_⟩, ?_, fun value ↦ ⟨?_, ?_⟩⟩
  · exact Expr.mem_openNames_iff.trans phrase.mem_symbols_expr
  · exact hfolded.exists_eq_constant_iff.trans Expr.isEmpty_openNames_iff.symm
  · intro hroot
    change phrase.expr settings.scope = _ at hroot
    change evaluate settings.scope (phrase.expr settings.scope) = _
    rw [hroot, evaluate]
  · intro hvalue
    -- a symbol of the tree would be open, and evaluation would stop at it
    have hresolves := haccounts.exists_ok_iff.1 ⟨value, hvalue⟩
    have hsymbols : (phrase.expr settings.scope).symbols = [] :=
      List.eq_nil_iff_forall_not_mem.2 fun s hs ↦
        (phrase.mem_symbols_expr.1 hs).2 (hresolves s hs)
    obtain ⟨value', hroot⟩ := hfolded.exists_eq_constant hsymbols
    change evaluate settings.scope (phrase.expr settings.scope) = _ at hvalue
    rw [hroot, evaluate] at hvalue
    cases hvalue
    exact hroot

/-- The inner call is computed, and the outer one keeps its name open. -/
theorem folded_call_of_computed_call :
    parse { vocabulary := { Vocabulary.single "a" Numeric.pi with
        unary := some fun name ↦ if name = "h" then some id else none }, implied := true }
        "g(h(a))x" =
      .ok ⟨.call₂ (some Operator.mul.apply) "*" (.call₁ none "g" (.constant Numeric.pi)) (.var "x"),
        true, { Vocabulary.single "a" Numeric.pi with
          unary := some fun name ↦ if name = "h" then some id else none }⟩ ∧
    Expr.Folded (.call₂ (some Operator.mul.apply) "*" (.call₁ none "g" (.constant Numeric.pi))
      (.var "x")) := by
  let lexemes : List Lexeme := [⟨.identifier "g", "g", ⟨0, 1⟩⟩, ⟨.glyph .openParen, "(", ⟨1, 2⟩⟩,
    ⟨.identifier "h", "h", ⟨2, 3⟩⟩, ⟨.glyph .openParen, "(", ⟨3, 4⟩⟩,
    ⟨.identifier "a", "a", ⟨4, 5⟩⟩, ⟨.glyph .closeParen, ")", ⟨5, 6⟩⟩,
    ⟨.glyph .closeParen, ")", ⟨6, 7⟩⟩, ⟨.identifier "x", "x", ⟨7, 8⟩⟩]
  have hscan : scan "g(h(a))x" = .ok lexemes := by
    decide +kernel
  have ha : Derives (row lexemes) true .operand 4 5 (.name "a") := .name rfl (by rintro ⟨⟩)
  have hinner : Derives (row lexemes) true .operand 2 6 (.call₁ "h" (.name "a")) :=
    .call₁ rfl rfl (ha.tier_of_operand .additive) rfl
  have houter : Derives (row lexemes) true .operand 0 7 (.call₁ "g" (.call₁ "h" (.name "a"))) :=
    .call₁ rfl rfl (hinner.tier_of_operand .additive) rfl
  have hx : Derives (row lexemes) true .operand 7 8 (.name "x") := .name rfl (by rintro ⟨⟩)
  have hphrase := houter.joined_of_operands (.implied rfl (by rintro ⟨⟩)) hx
  let settings : Settings :=
    { vocabulary := { Vocabulary.single "a" Numeric.pi with
        unary := some fun name ↦ if name = "h" then some id else none }
      implied := true }
  have hparse : settings.parse "g(h(a))x" = .ok ⟨.call₂ (some Operator.mul.apply) "*"
      (.call₁ none "g" (.constant Numeric.pi)) (.var "x"), true, settings.vocabulary⟩ :=
    parse_eq_ok_iff.2 ⟨lexemes, _, hscan, hphrase, by decide, by with_unfolding_all rfl⟩
  exact ⟨hparse, (folded_of_parse hparse).1⟩

end Settings

end Formulae
