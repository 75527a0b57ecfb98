import Formulae.Proofs.RoundTrip.Settled

/-!
# The text of a parsed tree

A parsed tree is written as a text that is parsed to the same tree (`Settings.parse_text_of_parse`).
The tree does not keep everything the first text said: parentheses, names that are known and
products that are computed are gone. What it does keep is settled and folded, and that is all the
round trip needs. Each constructor of the tree has one way to be written, and a negative constant
comes back as a computed product with `-1`.

Two kinds of tree are not read back. A constant that is not finite is written as a word, and a word
is a name. And the function of a split call is written under its own name, which may begin like a
number where the name it was split from did not: with a function `.b`, the call `a.b(x)` is
`a * .b(x)`, but no text can call `.b` by itself (`Settings.parse_text_ne_of_pointed`).
-/

namespace Formulae

namespace Expr

/-- The constants of a tree, from left to right. -/
def constants : Expr → List Float
  | constant value => [value]
  | var _ => []
  | call₁ _ _ argument => argument.constants
  | call₂ _ _ first second => first.constants ++ second.constants

/-- The names of the calls of one argument in a tree, from left to right. -/
def calledNames : Expr → List String
  | constant _ => []
  | var _ => []
  | call₁ _ name argument => name :: argument.calledNames
  | call₂ _ _ first second => first.calledNames ++ second.calledNames

/-- The text of a tree says what the tree is: its constants are written as numerals, and no name
would be read as a number. -/
structure Writable (e : Expr) : Prop where
  finite : ∀ x ∈ e.constants, x.isFinite
  called : ∀ name ∈ e.calledNames, ¬ BeginsNumber name

variable {scope : Scope} {name : String} {first second argument : Expr}

theorem Writable.arg {f? : Option (Float → Float)}
    (h : (Expr.call₁ f? name argument).Writable) : argument.Writable :=
  ⟨h.finite, fun name hname ↦ h.called name (List.mem_cons_of_mem _ hname)⟩

theorem Writable.fst {f? : Option (Float → Float → Float)}
    (h : (Expr.call₂ f? name first second).Writable) : first.Writable :=
  ⟨(List.forall_mem_append.1 h.finite).1, (List.forall_mem_append.1 h.called).1⟩

theorem Writable.snd {f? : Option (Float → Float → Float)}
    (h : (Expr.call₂ f? name first second).Writable) : second.Writable :=
  ⟨(List.forall_mem_append.1 h.finite).2, (List.forall_mem_append.1 h.called).2⟩

/-- A folded call has nothing left to compute. -/
theorem apply₁_eq_of_folded {f? : Option (Float → Float)}
    (h : (Expr.call₁ f? name argument).Folded) :
    apply₁ name f? argument = call₁ f? name argument := by
  unfold apply₁
  split
  · exact absurd ⟨rfl, rfl⟩ h.2
  · rfl

theorem apply₂_eq_of_folded {f? : Option (Float → Float → Float)}
    (h : (Expr.call₂ f? name first second).Folded) :
    apply₂ name f? first second = call₂ f? name first second := by
  unfold apply₂
  split
  · exact absurd ⟨rfl, rfl, rfl⟩ h.2.2
  · rfl

end Expr

/-- A call that means nothing is left as it is. -/
theorem Scope.exprOfCall₁_of_open {scope : Scope} {word : String} {argument : Expr}
    (h : scope.function? word = none) :
    scope.exprOfCall₁ word argument = .call₁ none word argument := by
  rw [function?, Option.or_eq_none_iff, Option.map_eq_none_iff] at h
  rw [exprOfCall₁, h.1, h.2]
  rfl

/-- No part of a name is the symbol of an operator. -/
theorem IsNamePart.ofSymbol?_eq_none {name : String} (h : IsNamePart name) :
    Operator.ofSymbol? name = none := by
  rw [Option.eq_none_iff_forall_ne_some]
  intro op hop
  rw [Operator.ofSymbol?_eq_some_iff] at hop
  have hchar := h.isNameChar op.glyph.char (by simp [hop, op.toList_symbol])
  rw [isNameChar_char] at hchar
  cases hchar

/-- A settled tree that is folded is the tree of its own text. -/
theorem Expr.Settled.exists_rendering {scope : Scope} {e : Expr} (h : e.Settled scope)
    (hfolded : e.Folded) (hwritable : e.Writable) :
    ∃ rendering : Rendering, e.text.toList = rendering.chars ∧
      rendering.phrase.expr scope = e := by
  induction h with
  | constant value =>
    -- a sign in front of the numeral is a factor that is computed
    obtain ⟨numeral, ⟨htext, hvalue⟩ | ⟨htext, hvalue⟩⟩ :=
      Decimal.exists_numeral (hwritable.finite value List.mem_cons_self)
    · exact ⟨.number numeral, htext, congrArg Expr.constant hvalue.symm⟩
    · exact ⟨.negative numeral, htext, congrArg Expr.constant hvalue.symm⟩
  | @var name hname hopen =>
    refine ⟨.name ⟨name, hname⟩, rfl, ?_⟩
    show scope.exprOfName name = _
    rw [Scope.exprOfName, hopen]
  | @open₁ name argument hname hopen _ ih =>
    obtain ⟨rendering, htext, hexpr⟩ := ih hfolded.1 hwritable.arg
    refine ⟨.call₁ ⟨name, hname⟩ rendering, ?_, ?_⟩
    · simp [Expr.text, Rendering.chars, htext]
    · show scope.exprOfCall₁ name (rendering.phrase.expr scope) = _
      rw [hexpr, Scope.exprOfCall₁_of_open hopen]
  | @bound₁ name f argument hname hbound _ ih =>
    obtain ⟨rendering, htext, hexpr⟩ := ih hfolded.1 hwritable.arg
    have hbegins : ¬ BeginsNumber name := hwritable.called name List.mem_cons_self
    refine ⟨.call₁ ⟨name, hname, hbegins⟩ rendering, ?_, ?_⟩
    · simp [Expr.text, Rendering.chars, htext]
    · show scope.exprOfCall₁ name (rendering.phrase.expr scope) = _
      rw [hexpr, Scope.exprOfCall₁, hbound]
      exact Expr.apply₁_eq_of_folded hfolded
  | @call₂ name f? first second hname hf _ _ ih₁ ih₂ =>
    obtain ⟨rendering₁, htext₁, hexpr₁⟩ := ih₁ hfolded.1 hwritable.fst
    obtain ⟨rendering₂, htext₂, hexpr₂⟩ := ih₂ hfolded.2.1 hwritable.snd
    refine ⟨.call₂ ⟨name, hname⟩ rendering₁ rendering₂, ?_, ?_⟩
    · simp [Expr.text, Rendering.chars, htext₁, htext₂, hname.ofSymbol?_eq_none]
    · show scope.exprOfCall₂ name (rendering₁.phrase.expr scope) (rendering₂.phrase.expr scope) = _
      rw [hexpr₁, hexpr₂, Scope.exprOfCall₂, hf]
      exact Expr.apply₂_eq_of_folded hfolded
  | @operation op first second _ _ ih₁ ih₂ =>
    obtain ⟨rendering₁, htext₁, hexpr₁⟩ := ih₁ hfolded.1 hwritable.fst
    obtain ⟨rendering₂, htext₂, hexpr₂⟩ := ih₂ hfolded.2.1 hwritable.snd
    refine ⟨.operation op rendering₁ rendering₂, ?_, ?_⟩
    · simp [Expr.text, Rendering.chars, htext₁, htext₂, op.toList_symbol]
    · show op.combine (rendering₁.phrase.expr scope) (rendering₂.phrase.expr scope) = _
      rw [hexpr₁, hexpr₂, op.combine_eq_apply₂]
      exact Expr.apply₂_eq_of_folded hfolded

namespace Settings

variable {settings : Settings} {text : String} {formula : Formula}

/-- **The text of a parsed tree is parsed to the tree**, with the same names and the same functions
and constants, if its constants are finite and no call of one argument has a name that begins like a
number. Only the limit may have to be higher, for the parentheses around operators. -/
theorem parse_text_of_parse (hparse : settings.parse text = .ok formula)
    (hfinite : ∀ x ∈ formula.root.constants, x.isFinite)
    (hcalled : ∀ name ∈ formula.root.calledNames, ¬ BeginsNumber name) :
    ∃ depth, ∀ limit, depth ≤ limit →
      parse { settings with depthLimit := limit } formula.root.text = .ok formula := by
  obtain ⟨lexemes, phrase, hscan, hphrase, -, rfl⟩ := parse_eq_ok_iff.1 hparse
  have hnames : ∀ s ∈ phrase.symbols, IsIdentifier s.name := by
    intro s hs
    obtain ⟨i, htoken⟩ := hphrase.writtenIn nofun s hs
    exact isIdentifier_of_tokenAt?_row hscan htoken
  have hsettled : (phrase.expr settings.scope).Settled settings.scope := Phrase.settled_expr hnames
  obtain ⟨rendering, htext, hexpr⟩ :=
    hsettled.exists_rendering phrase.folded_expr ⟨hfinite, hcalled⟩
  refine ⟨rendering.phrase.nesting, fun limit hlimit ↦ ?_⟩
  rw [parse_of_rendering htext hlimit]
  show Except.ok (⟨rendering.phrase.expr settings.scope, _, _⟩ : Formula) = _
  rw [hexpr]

/-- The row of a call of a variable is an expression. -/
theorem derives_call_variable {implied : Bool} (function argument : String) :
    Derives [⟨.identifier function, false⟩, ⟨.glyph .openParen, true⟩,
      ⟨.identifier argument, true⟩, ⟨.glyph .closeParen, true⟩] implied (.tier .additive) 0 4
      (.call₁ function (.name argument)) := by
  refine Derives.tier_of_operand ?_ .additive
  refine .call₁ (j := 3) rfl rfl (Derives.tier_of_operand ?_ .additive) rfl
  exact .name rfl (by rintro ⟨⟩)

/-- The function of a split call stays bound to its own name. -/
theorem parse_text_of_split_call :
    ∃ depth, ∀ limit, depth ≤ limit →
      parse { vocabulary := .single "k" Numeric.pi, implied := true, depthLimit := limit }
          (Expr.text (.call₂ (some Operator.mul.apply) "*" (.constant Numeric.pi)
            (.call₁ (some Float.sin) "sin" (.var "x")))) =
        .ok ⟨.call₂ (some Operator.mul.apply) "*" (.constant Numeric.pi)
          (.call₁ (some Float.sin) "sin" (.var "x")), true, .single "k" Numeric.pi⟩ := by
  let lexemes : List Lexeme := [⟨.identifier "ksin", "ksin", ⟨0, 1⟩⟩,
    ⟨.glyph .openParen, "(", ⟨4, 5⟩⟩, ⟨.identifier "x", "x", ⟨5, 6⟩⟩,
    ⟨.glyph .closeParen, ")", ⟨6, 7⟩⟩]
  have hscan : scan "ksin(x)" = .ok lexemes := by
    decide +kernel
  have hparse : parse { vocabulary := .single "k" Numeric.pi, implied := true } "ksin(x)" =
      .ok ⟨.call₂ (some Operator.mul.apply) "*" (.constant Numeric.pi)
        (.call₁ (some Float.sin) "sin" (.var "x")), true, .single "k" Numeric.pi⟩ :=
    parse_eq_ok_iff.2 ⟨lexemes, _, hscan, derives_call_variable "ksin" "x", by decide,
      by with_unfolding_all rfl⟩
  refine parse_text_of_parse hparse ?_ ?_
  · exact List.forall_mem_singleton.2 (by decide +kernel)
  · exact List.forall_mem_singleton.2 (by simp [BeginsNumber])

/-- Settings with a function whose name begins with a point. -/
def pointed (value : Float) : Settings where
  vocabulary := { Vocabulary.single "a" value with
    unary := some fun name ↦ if name = ".b" then some fun x ↦ x * x else none }
  implied := true

/-- The tree of `a.b(x)` under these settings. -/
def pointedRoot (value : Float) : Expr :=
  .call₂ (some Operator.mul.apply) "*" (.constant value)
    (.call₁ (some fun x ↦ x * x) ".b" (.var "x"))

theorem parse_pointed (value : Float) : (pointed value).parse "a.b(x)" =
    .ok ⟨pointedRoot value, true, (pointed value).vocabulary⟩ := by
  let lexemes : List Lexeme := [⟨.identifier "a.b", "a.b", ⟨0, 1⟩⟩,
    ⟨.glyph .openParen, "(", ⟨3, 4⟩⟩, ⟨.identifier "x", "x", ⟨4, 5⟩⟩,
    ⟨.glyph .closeParen, ")", ⟨5, 6⟩⟩]
  have hscan : scan "a.b(x)" = .ok lexemes := by
    decide +kernel
  exact parse_eq_ok_iff.2 ⟨lexemes, _, hscan, derives_call_variable "a.b" "x",
    (by decide : 2 ≤ 64), by with_unfolding_all rfl⟩

theorem text_pointedRoot : (pointedRoot 2).text = "(2 * .b(x))" := by
  have htwo : numberText 2 = "2" := by decide +kernel
  simp [pointedRoot, Expr.text, htwo, Operator.ofSymbol?]

/-- The point in front of `b` belongs to no lexeme. -/
theorem scan_text_pointedRoot : scan (pointedRoot 2).text = .error (.stray "." 6) := by
  have hblank (c : Char) (hc : isBlank c = false) : ∀ d ∈ [c].head?, isBlank d = false := by
    rintro _ ⟨⟩
    exact hc
  have hnumber : firstToken? (['2'] ++ (' ' :: (['*'] ++ (' ' :: '.' ::
    ['b', '(', 'x', ')', ')'])))) = some (.number 2, ['2']) := by decide +kernel
  have hpoint : firstToken? ('.' :: ['b', '(', 'x', ')', ')']) = none := by decide +kernel
  rw [text_pointedRoot]
  show scanFrom {} (['('] ++ (['2'] ++ (' ' :: (['*'] ++
    (' ' :: '.' :: ['b', '(', 'x', ')', ')']))))) = _
  rw [scanFrom_token (hblank '(' rfl) rfl, scanFrom_token (hblank '2' rfl) hnumber,
    scanFrom_blank rfl, scanFrom_token (hblank '*' rfl) rfl, scanFrom_blank rfl,
    scanFrom_stray rfl hpoint]
  rfl

/-- The text of a parsed tree with finite constants need not be accepted at any limit. -/
theorem parse_text_ne_of_pointed :
    (pointed 2).parse "a.b(x)" = .ok ⟨pointedRoot 2, true, (pointed 2).vocabulary⟩ ∧
      (∀ x ∈ (pointedRoot 2).constants, x.isFinite) ∧
      ∀ limit formula,
        parse { pointed 2 with depthLimit := limit } (pointedRoot 2).text ≠ .ok formula := by
  refine ⟨parse_pointed 2, List.forall_mem_singleton.2 (by decide +kernel), fun limit formula ↦ ?_⟩
  rw [parse_of_scan_error scan_text_pointedRoot]
  exact nofun

end Settings

end Formulae
