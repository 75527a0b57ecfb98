import Formulae.Proofs.Names.Folding

/-!
# Implied products extend the language

Allowing implied products takes nothing away. A derivation without them is one with them
(`Derives.allowing`), of the same phrase, so a text that was accepted still is, at the same limit.
What may change is what the phrase means: a name that was left open may now split. If none does, the
tree is the same (`Phrase.expr_allowing`).

A name that means something without being split means the same where splitting is allowed. So every
value that a tree has without splitting it has with it (`Scope.Within`, `evaluate_of_within`),
whatever the overrides are. The converse fails, since overrides may turn an open name into a
product.
-/

namespace Formulae

/-! ### Derivations -/

section

variable {row : List Piece} {n : Nonterminal} {i j : Nat} {phrase : Phrase}

/-- Joints without implied products are joints with them. -/
theorem Joins.allowing {tier : Tier} {joint : Joint} (h : Joins row false tier i j joint)
    (implied : Bool) : Joins row implied tier i j joint := by
  cases h with
  | written htoken hop => exact .written htoken hop
  | implied himplied => cases himplied

/-- A derivation without implied products is one with them. -/
theorem Derives.allowing (h : Derives row false n i j phrase) (implied : Bool) :
    Derives row implied n i j phrase := by
  induction h with
  | number htoken => exact .number htoken
  | name htoken hopens => exact .name htoken hopens
  | call₁ htoken hopens _ hclose ih => exact .call₁ htoken hopens ih hclose
  | call₂ htoken hopens _ hcomma _ hclose ih₁ ih₂ =>
    exact .call₂ htoken hopens ih₁ hcomma ih₂ hclose
  | parens hopen _ hclose ih => exact .parens hopen ih hclose
  | negative hminus htouches _ ih => exact .negative hminus htouches ih
  | chain _ _ ih₁ ih₂ => exact .chain ih₁ ih₂
  | stop => exact .stop
  | left hleft hjoins _ _ ih₁ ih₂ => exact .left hleft (hjoins.allowing implied) ih₁ ih₂
  | right hright hjoins _ _ ih₁ ih₂ => exact .right hright (hjoins.allowing implied) ih₁ ih₂

end

/-! ### Names without a split -/

namespace Scope

/-- The scope in which names may be split, or not. -/
def allowing (scope : Scope) (implied : Bool) : Scope :=
  { scope with implied := implied }

/-- The name of a symbol has no complete split, or no split as the name of a call. Nothing is split
for a function of two arguments. -/
def Unsplit (scope : Scope) : Symbol → Prop
  | ⟨.variable, name⟩ => scope.product? name = none
  | ⟨.unary, name⟩ => scope.scaledFunction? name = none
  | ⟨.binary, _⟩ => True

variable {scope : Scope} {word : String}

theorem number?_allowing_false : (scope.allowing false).number? word = scope.value? word := by
  show (scope.value? word).or none = _
  rw [Option.or_none]

theorem number?_allowing_true :
    (scope.allowing true).number? word = (scope.value? word).or (scope.product? word) := rfl

theorem function?_allowing_false : (scope.allowing false).function? word = scope.unary? word := by
  show (scope.unary? word).or none = _
  rw [Option.or_none]

theorem function?_allowing_true : (scope.allowing true).function? word =
    (scope.unary? word).or ((scope.scaledFunction? word).map ScaledFunction.apply) := rfl

/-- A name that means nothing unsplit, and does not split, is left open by both scopes. -/
theorem exprOfName_allowing
    (h : ¬ (scope.allowing false).Resolves ⟨.variable, word⟩ → scope.Unsplit ⟨.variable, word⟩) :
    (scope.allowing true).exprOfName word = (scope.allowing false).exprOfName word := by
  rw [exprOfName, exprOfName, number?_allowing_true, number?_allowing_false]
  rcases hvalue : scope.value? word with - | value
  · have hopen : ¬ (scope.allowing false).Resolves ⟨.variable, word⟩ :=
      not_resolves_variable (number?_allowing_false.trans hvalue)
    rw [show scope.product? word = none from h hopen]
    rfl
  · rfl

theorem exprOfCall₁_allowing {argument : Expr}
    (h : ¬ (scope.allowing false).Resolves ⟨.unary, word⟩ → scope.Unsplit ⟨.unary, word⟩) :
    (scope.allowing true).exprOfCall₁ word argument =
      (scope.allowing false).exprOfCall₁ word argument := by
  have hunary (implied : Bool) : (scope.allowing implied).unary? word = scope.unary? word := rfl
  rw [exprOfCall₁, exprOfCall₁, hunary, hunary]
  rcases hf : scope.unary? word with - | f
  · have hopen : ¬ (scope.allowing false).Resolves ⟨.unary, word⟩ :=
      not_resolves_unary (function?_allowing_false.trans hf)
    rw [show (scope.allowing true).impliedFunction? word = none from h hopen,
      show (scope.allowing false).impliedFunction? word = none from rfl]
  · rfl

end Scope

/-- A phrase of which no open name splits has the same tree whether names may be split or not. -/
theorem Phrase.expr_allowing {scope : Scope} {phrase : Phrase}
    (h : ∀ s ∈ phrase.symbols, ¬ (scope.allowing false).Resolves s → scope.Unsplit s) :
    phrase.expr (scope.allowing true) = phrase.expr (scope.allowing false) := by
  induction phrase with
  | number => rfl
  | name word => exact Scope.exprOfName_allowing (h _ List.mem_cons_self)
  | call₁ word argument ih =>
    obtain ⟨hword, hargument⟩ := List.forall_mem_cons.1 h
    rw [expr, expr, ih hargument, Scope.exprOfCall₁_allowing hword]
  | call₂ word first second ih₁ ih₂ =>
    obtain ⟨-, harguments⟩ := List.forall_mem_cons.1 h
    obtain ⟨hfirst, hsecond⟩ := List.forall_mem_append.1 harguments
    rw [expr, expr, ih₁ hfirst, ih₂ hsecond]
    rfl
  | parens inner ih => exact ih h
  | negative operand ih => rw [expr, expr, ih h]
  | joined joint lhs rhs ih₁ ih₂ =>
    obtain ⟨hlhs, hrhs⟩ := List.forall_mem_append.1 h
    rw [expr, expr, ih₁ hlhs, ih₂ hrhs]

/-! ### Values that are kept -/

/-- Whatever means something in the one scope means the same in the other. -/
structure Scope.Within (scope scope' : Scope) : Prop where
  number? : ∀ {name value}, scope.number? name = some value → scope'.number? name = some value
  function? : ∀ {name f}, scope.function? name = some f → scope'.function? name = some f
  binary? : ∀ {name f}, scope.binary? name = some f → scope'.binary? name = some f

/-- A name means without a split what it means with one. -/
theorem Scope.allowing_within (scope : Scope) :
    (scope.allowing false).Within (scope.allowing true) where
  number? h := by
    rw [number?_allowing_false] at h
    rw [number?_allowing_true, h, Option.some_or]
  function? h := by
    rw [function?_allowing_false] at h
    rw [function?_allowing_true, h, Option.some_or]
  binary? h := h

section

variable {scope scope' : Scope} {name : String} {argument first second : Expr} {value : Float}

theorem evaluate_var_eq_ok_iff :
    evaluate scope (.var name) = .ok value ↔ scope.number? name = some value := by
  rw [evaluate]
  rcases scope.number? name with - | x <;> simp

theorem evaluate_call₁_eq_ok_iff {f? : Option (Float → Float)} :
    evaluate scope (.call₁ f? name argument) = .ok value ↔
      ∃ f x, f?.or (scope.function? name) = some f ∧ evaluate scope argument = .ok x ∧
        f x = value := by
  rw [evaluate]
  rcases f?.or (scope.function? name) with - | f
  · simp
  · rcases evaluate scope argument with u | x <;> simp [Except.map]

theorem evaluate_call₂_eq_ok_iff {f? : Option (Float → Float → Float)} :
    evaluate scope (.call₂ f? name first second) = .ok value ↔
      ∃ f x y, f?.or (scope.binary? name) = some f ∧ evaluate scope first = .ok x ∧
        evaluate scope second = .ok y ∧ f x y = value := by
  rw [evaluate]
  rcases f?.or (scope.binary? name) with - | f
  · simp
  · rcases evaluate scope first with u | x
    · simp [bind, Except.bind]
    · rcases evaluate scope second with u | y <;> simp [bind, Except.bind, pure, Except.pure]

/-- A call that is bound keeps its function, and one that is not finds it again. -/
theorem or_eq_some_of_imp {α : Type} {f? g? g?' : Option α} {f : α}
    (hg : g? = some f → g?' = some f) (h : f?.or g? = some f) : f?.or g?' = some f := by
  rcases f? with - | f'
  · rw [Option.none_or] at h ⊢
    exact hg h
  · exact h

/-- A tree keeps its value where all names keep their meanings. -/
theorem evaluate_of_within (hwithin : scope.Within scope') {e : Expr}
    (h : evaluate scope e = .ok value) : evaluate scope' e = .ok value := by
  induction e generalizing value with
  | constant => exact h
  | var name =>
    rw [evaluate_var_eq_ok_iff] at h ⊢
    exact hwithin.number? h
  | call₁ f? name argument ih =>
    obtain ⟨f, x, hf, hx, rfl⟩ := evaluate_call₁_eq_ok_iff.1 h
    exact evaluate_call₁_eq_ok_iff.2 ⟨f, x, or_eq_some_of_imp hwithin.function? hf, ih hx, rfl⟩
  | call₂ f? name first second ih₁ ih₂ =>
    obtain ⟨f, x, y, hf, hx, hy, rfl⟩ := evaluate_call₂_eq_ok_iff.1 h
    exact evaluate_call₂_eq_ok_iff.2
      ⟨f, x, y, or_eq_some_of_imp hwithin.binary? hf, ih₁ hx, ih₂ hy, rfl⟩

end

/-! ### Texts -/

namespace Settings

variable {settings : Settings} {text : String} {formula : Formula}

/-- **Implied products are a conservative extension.** A text that is accepted without them is
accepted with them, at the same limit. If no name that the first formula leaves open splits, the two
formulas have the same tree, and under all overrides every value of the first is the value of the
second. -/
theorem parse_allowing_of_parse
    (hparse : { settings with implied := false }.parse text = .ok formula) :
    ∃ formula', { settings with implied := true }.parse text = .ok formula' ∧
      ((∀ name ∈ formula.openNames.variables, settings.scope.product? name = none) →
        (∀ name ∈ formula.openNames.unary, settings.scope.scaledFunction? name = none) →
        formula'.root = formula.root ∧
          ∀ overrides value, formula.evaluate overrides = .ok value →
            formula'.evaluate overrides = .ok value) := by
  obtain ⟨lexemes, phrase, hscan, hphrase, hlimit, rfl⟩ := parse_eq_ok_iff.1 hparse
  refine ⟨_, parse_eq_ok_iff.2 ⟨lexemes, phrase, hscan, hphrase.allowing true, hlimit, rfl⟩,
    fun hvariables hunary ↦ ?_⟩
  have hunsplit : ∀ s ∈ phrase.symbols, ¬ (settings.scope.allowing false).Resolves s →
      settings.scope.Unsplit s := by
    intro s hs hopen
    have hname := Expr.mem_openNames_iff.2 (phrase.mem_symbols_expr.2 ⟨hs, hopen⟩)
    rcases s with ⟨- | - | -, name⟩
    · exact hvariables name hname
    · exact hunary name hname
    · trivial
  have hroot : phrase.expr (settings.scope.allowing true) =
      phrase.expr (settings.scope.allowing false) := Phrase.expr_allowing hunsplit
  refine ⟨hroot, fun overrides value hvalue ↦ ?_⟩
  let late : Scope := ⟨overrides, settings.vocabulary, false⟩
  change evaluate (late.allowing true) (phrase.expr (settings.scope.allowing true)) = _
  rw [hroot]
  exact evaluate_of_within late.allowing_within hvalue

/-- A name of which only a part is known does not split completely, and stays open. -/
theorem parse_allowing_half_known :
    let root := Expr.call₂ (some Operator.add.apply) "+" (.call₁ none "g" (.var "x")) (.var "ab")
    parse { vocabulary := .single "a" Numeric.pi } "g(x)+ab" =
        .ok ⟨root, false, .single "a" Numeric.pi⟩ ∧
      ∃ formula', parse { vocabulary := .single "a" Numeric.pi, implied := true } "g(x)+ab" =
          .ok formula' ∧
        formula'.root = root ∧ ∀ overrides value,
          Formula.evaluate ⟨root, false, .single "a" Numeric.pi⟩ overrides = .ok value →
            formula'.evaluate overrides = .ok value := by
  intro root
  let lexemes : List Lexeme := [⟨.identifier "g", "g", ⟨0, 1⟩⟩, ⟨.glyph .openParen, "(", ⟨1, 2⟩⟩,
    ⟨.identifier "x", "x", ⟨2, 3⟩⟩, ⟨.glyph .closeParen, ")", ⟨3, 4⟩⟩,
    ⟨.glyph .plus, "+", ⟨4, 5⟩⟩, ⟨.identifier "ab", "ab", ⟨5, 6⟩⟩]
  have hscan : scan "g(x)+ab" = .ok lexemes := by
    decide +kernel
  have hx : Derives (row lexemes) false .operand 2 3 (.name "x") := .name rfl (by rintro ⟨⟩)
  have hcall : Derives (row lexemes) false .operand 0 4 (.call₁ "g" (.name "x")) :=
    .call₁ rfl rfl (hx.tier_of_operand .additive) rfl
  have hab : Derives (row lexemes) false .operand 5 6 (.name "ab") := .name rfl (by rintro ⟨⟩)
  have hplus : Joins (row lexemes) false .additive 4 5 (.written .add) := .written rfl rfl
  have hphrase := hcall.joined_of_operands hplus hab
  have hparse : parse { vocabulary := .single "a" Numeric.pi } "g(x)+ab" =
      .ok ⟨root, false, .single "a" Numeric.pi⟩ :=
    parse_eq_ok_iff.2 ⟨lexemes, _, hscan, hphrase, by decide, by with_unfolding_all rfl⟩
  -- the number that the table holds takes no part in the computation
  have hproduct (x : Float) : ∀ name ∈ ["x", "ab"],
      Scope.product? { vocabulary := .single "a" x } name = none := by
    refine List.forall_mem_cons.2 ⟨?_, List.forall_mem_singleton.2 ?_⟩ <;> cbv
  have hscaled (x : Float) : Scope.scaledFunction? { vocabulary := .single "a" x } "g" = none := by
    cbv
  obtain ⟨formula', hparse', hsame⟩ :=
    @parse_allowing_of_parse { vocabulary := .single "a" Numeric.pi } _ _ hparse
  refine ⟨hparse, formula', hparse', hsame (fun name hname ↦ ?_) fun name hname ↦ ?_⟩
  · have hs := Expr.mem_openNames_iff (s := ⟨.variable, name⟩).1 hname
    refine hproduct Numeric.pi name ?_
    simpa [root, or_comm] using hs
  · have hs := Expr.mem_openNames_iff (s := ⟨.unary, name⟩).1 hname
    obtain rfl : name = "g" := by simpa [root] using hs
    exact hscaled Numeric.pi

end Settings

end Formulae
