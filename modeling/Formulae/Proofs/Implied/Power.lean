import Formulae.Proofs.Grammar.Composition
import Formulae.Proofs.Grammar.Meaning
import Formulae.Proofs.Names.Relevance

/-!
# Powers of split names

A name is one operand, whatever it splits into. A power of a name that splits is therefore the power
of the whole product, as if the factors stood in parentheses. An implied product that is written
with a space leaves the exponent to its last factor, as every product does: where `ab` splits,
`ab^c` is `(a b)^c`, and `a b^c` is `a * (b^c)`. It is the same with a call whose name splits into a
factor and a function.

So a split name means what its factors mean next to each other, as long as nothing binds tighter
than a product.

Values are put together as texts are. `Settings.Denotes` says of a part of a text what
`Settings.Evaluates` says of a whole one, and there is one law for each way to write something.
-/

namespace Formulae

namespace Settings

variable {settings : Settings} {overrides : Vocabulary}

/-! ### Values of texts and of their parts -/

/-- The text is parsed, and the formula evaluates to the number. -/
def Evaluates (settings : Settings) (overrides : Vocabulary) (text : String) (value : Float) :
    Prop :=
  ∃ formula, settings.parse text = .ok formula ∧ formula.evaluate overrides = .ok value

/-- A text evaluates to one number at most. -/
theorem Evaluates.unique {text : String} {x y : Float}
    (hx : settings.Evaluates overrides text x) (hy : settings.Evaluates overrides text y) :
    x = y := by
  obtain ⟨formula, hparse, hvalue⟩ := hx
  obtain ⟨formula', hparse', hvalue'⟩ := hy
  cases hparse.symm.trans hparse'
  exact Except.ok.inj (hvalue.symm.trans hvalue')

/-- The text is written as a phrase of the nonterminal that nests no deeper than `depth` and has the
number as its value. -/
def Denotes (settings : Settings) (overrides : Vocabulary) (n : Nonterminal) (depth : ℕ)
    (text : String) (value : Float) : Prop :=
  ∃ phrase, Writes settings.implied n text phrase ∧ phrase.nesting ≤ depth ∧
    phrase.value settings.scope (settings.lateScope overrides) = .ok value

/-- What evaluates to a number is an expression with that value, within the limit. -/
theorem denotes_additive_iff {text : String} {value : Float} :
    settings.Denotes overrides (.tier .additive) settings.depthLimit text value ↔
      settings.Evaluates overrides text value := by
  constructor
  · rintro ⟨phrase, hwrites, hfits, hvalue⟩
    exact ⟨_, parse_of_writes hwrites hfits, phrase.evaluate_expr.trans hvalue⟩
  · rintro ⟨formula, hparse, hvalue⟩
    obtain ⟨lexemes, phrase, hscan, hphrase, hfits, rfl⟩ := parse_eq_ok_iff.1 hparse
    exact ⟨phrase, ⟨lexemes, hscan, hphrase⟩, hfits, phrase.evaluate_expr.symm.trans hvalue⟩

namespace Denotes

variable {n : Nonterminal} {depth depth' : ℕ} {text first second word : String}
  {x y : Float}

/-- A part of a text may be nested as deeply as a larger bound allows. -/
theorem mono (h : settings.Denotes overrides n depth text x) (hle : depth ≤ depth') :
    settings.Denotes overrides n depth' text x := by
  obtain ⟨phrase, hwrites, hfits, hvalue⟩ := h
  exact ⟨phrase, hwrites, hfits.trans hle, hvalue⟩

/-- Nothing can be written on no level at all. -/
theorem one_le (h : settings.Denotes overrides n depth text x) : 1 ≤ depth := by
  obtain ⟨phrase, -, hfits, -⟩ := h
  exact phrase.nesting_pos.trans_le hfits

/-- An operand is a chain of any tier, of one operand. -/
theorem tier (h : settings.Denotes overrides .operand depth text x) (tier : Tier) :
    settings.Denotes overrides (.tier tier) depth text x := by
  obtain ⟨phrase, hwrites, hrest⟩ := h
  exact ⟨phrase, hwrites.tier tier, hrest⟩

/-- A chain of any tier is an expression. -/
theorem additive {tier : Tier} (h : settings.Denotes overrides (.tier tier) depth text x) :
    settings.Denotes overrides (.tier .additive) depth text x := by
  obtain ⟨phrase, hwrites, hrest⟩ := h
  exact ⟨phrase, hwrites.additive, hrest⟩

/-- A chain that stands alone is a text, if it is within the limit. -/
theorem evaluates {tier : Tier} (h : settings.Denotes overrides (.tier tier) depth text x)
    (hdepth : depth ≤ settings.depthLimit) : settings.Evaluates overrides text x :=
  denotes_additive_iff.1 (h.additive.mono hdepth)

/-- A name has the number that the scope of the parse has for it. -/
theorem name (hword : IsIdentifier word) (hvalue : settings.scope.number? word = some x) :
    settings.Denotes overrides .operand 1 word x := by
  refine ⟨.name word, .name hword, Nat.le_refl 1, ?_⟩
  rw [Phrase.value, hvalue, Option.some_or]

/-- A call has the value of its function at the value of its argument, and takes a level. -/
theorem call₁ {f : Float → Float} (hword : IsIdentifier word)
    (hf : settings.scope.function? word = some f)
    (h : settings.Denotes overrides (.tier .additive) depth text x) :
    settings.Denotes overrides .operand (depth + 1) (word ++ "(" ++ text ++ ")") (f x) := by
  obtain ⟨argument, hwrites, hfits, hvalue⟩ := h
  refine ⟨.call₁ word argument, hwrites.call₁ hword, Nat.succ_le_succ hfits, ?_⟩
  rw [Phrase.value, hf, Option.some_or]
  dsimp only
  rw [hvalue]
  rfl

/-- Parentheses keep the value, and take a level. -/
theorem parens (h : settings.Denotes overrides (.tier .additive) depth text x) :
    settings.Denotes overrides .operand (depth + 1) ("(" ++ text ++ ")") x := by
  obtain ⟨phrase, hwrites, hfits, hvalue⟩ := h
  exact ⟨.parens phrase, hwrites.parens, Nat.succ_le_succ hfits, hvalue⟩

/-- A power of two operands needs no space, since `^` ends any name before it. -/
theorem power (hfirst : settings.Denotes overrides .operand depth first x)
    (hsecond : settings.Denotes overrides .operand depth second y) :
    settings.Denotes overrides (.tier .exponent) depth (first ++ "^" ++ second)
      (Operator.pow.apply x y) := by
  obtain ⟨lhs, hlhs, hfits, hx⟩ := hfirst
  obtain ⟨rhs, hrhs, hfits', hy⟩ := hsecond
  refine ⟨.joined (.written .pow) lhs rhs, hlhs.power hrhs, max_le hfits hfits', ?_⟩
  rw [Phrase.value, hx, hy]
  rfl

/-- An implied product is written with a space, and is one because a name follows the space: a sign
would subtract there. -/
theorem product (hfirst : settings.Denotes overrides (.tier .exponent) depth first x)
    (himplied : settings.implied = true)
    (hsecond : settings.Denotes overrides (.tier .exponent) depth second y)
    (hbegins : BeginsName second) :
    settings.Denotes overrides (.tier .multiplicative) depth (first ++ " " ++ second) (x * y) := by
  obtain ⟨lhs, hlhs, hfits, hx⟩ := hfirst
  obtain ⟨rhs, hrhs, hfits', hy⟩ := hsecond
  rw [himplied] at hlhs hrhs
  refine ⟨.joined .implied lhs rhs, ?_, max_le hfits hfits', ?_⟩
  · rw [himplied]
    exact hlhs.product hrhs hbegins
  · rw [Phrase.value, hx, hy]
    rfl

end Denotes

/-! ### One operand for two factors -/

/-- The operand `whole` stands for the factors `first` and `second` under an exponent: its power is
that of the product, as it is written with parentheses where the limit leaves room for them. Without
parentheses the exponent belongs to the second factor. -/
structure OneOperand (settings : Settings) (overrides : Vocabulary)
    (whole first second exponent : String) (depth : ℕ) (x y w : Float) : Prop where
  whole : settings.Evaluates overrides (whole ++ "^" ++ exponent) (Operator.pow.apply (x * y) w)
  parens : depth < settings.depthLimit →
    settings.Evaluates overrides ("(" ++ (first ++ " " ++ second) ++ ")" ++ "^" ++ exponent)
      (Operator.pow.apply (x * y) w)
  factors : settings.Evaluates overrides (first ++ " " ++ (second ++ "^" ++ exponent))
    (x * Operator.pow.apply y w)

/-- All that counts is that `whole` is an operand and has the value of the product. -/
theorem oneOperand_of_denotes {whole first second exponent : String} {depth : ℕ} {x y w : Float}
    (himplied : settings.implied = true)
    (hwhole : settings.Denotes overrides .operand depth whole (x * y))
    (hfirst : settings.Denotes overrides .operand depth first x)
    (hsecond : settings.Denotes overrides .operand depth second y) (hbegins : BeginsName second)
    (hdepth : depth ≤ settings.depthLimit)
    (hexponent : settings.Denotes overrides .operand settings.depthLimit exponent w) :
    settings.OneOperand overrides whole first second exponent depth x y w where
  whole := ((hwhole.mono hdepth).power hexponent).evaluates (Nat.le_refl _)
  parens hroom := by
    have hproduct := (hfirst.tier .exponent).product himplied (hsecond.tier .exponent) hbegins
    exact ((hproduct.additive.parens.mono hroom).power hexponent).evaluates (Nat.le_refl _)
  factors := by
    have hpower := (hsecond.mono hdepth).power hexponent
    have hbegins' : BeginsName (second ++ "^" ++ exponent) := (hbegins.append _).append _
    have hproduct := ((hfirst.mono hdepth).tier .exponent).product himplied hpower hbegins'
    exact hproduct.evaluates (Nat.le_refl _)

end Settings

/-! ### Names that split in two -/

/-- A beginning of a name is a name. -/
theorem IsIdentifier.of_append {word more : String} (h : IsIdentifier (word ++ more))
    (hword : word ≠ "") : IsIdentifier word := by
  have hnil : word.toList ≠ [] := mt String.toList_eq_nil_iff.1 hword
  refine ⟨⟨hnil, fun c hc ↦ h.isNameChar c ?_⟩, fun hbegins ↦ h.not_beginsNumber ?_⟩
  · rw [String.toList_append]
    exact List.mem_append_left _ hc
  · obtain ⟨c, hc, hnumber⟩ := hbegins
    obtain ⟨cs, hcons⟩ := List.head?_eq_some_iff.1 hc
    refine ⟨c, ?_, hnumber⟩
    rw [String.toList_append, hcons]
    rfl

namespace Scope

/-- A name that means nothing by itself, and splits into the product of two known names. -/
structure SplitsAt (scope : Scope) (l r : String) (x y : Float) : Prop where
  name : IsIdentifier (l ++ r)
  unknown : scope.value? (l ++ r) = none
  front : scope.value? l = some x
  back : scope.value? r = some y
  product : scope.product? (l ++ r) = some (x * y)

/-- A name of a call that means nothing by itself, and splits into a known factor and a function. -/
structure ScalesAt (scope : Scope) (l f : String) (x : Float) (φ : Float → Float) : Prop where
  name : IsIdentifier (l ++ f)
  unknown : scope.unary? (l ++ f) = none
  front : scope.value? l = some x
  split : scope.scaledFunction? (l ++ f) = some ⟨x, some (f, φ)⟩

variable {scope : Scope} {word l r f : String} {x y : Float} {φ : Float → Float}

theorem number?_of_value? (h : scope.value? word = some x) : scope.number? word = some x := by
  rw [number?, h, Option.some_or]

namespace SplitsAt

/-- The first factor is a name, since the split leaves it some characters. -/
theorem isIdentifier_front (h : scope.SplitsAt l r x y) : IsIdentifier l := by
  refine h.name.of_append ?_
  -- otherwise the whole name would be known
  rintro rfl
  have hunknown := h.unknown
  rw [String.empty_append, h.back] at hunknown
  cases hunknown

/-- Where products are implied, the name stands for the product. -/
theorem number? (h : scope.SplitsAt l r x y) (himplied : scope.implied = true) :
    scope.number? (l ++ r) = some (x * y) := by
  rw [Scope.number?, h.unknown, Option.none_or, if_pos himplied, h.product]

end SplitsAt

namespace ScalesAt

/-- What remains of the name is a function by itself. -/
theorem unary?_function (h : scope.ScalesAt l f x φ) : scope.unary? f = some φ :=
  (unary?_of_scaledFunction? h.name.toIsNamePart h.split rfl).2

/-- The factor of the call is a name, since the function alone would be known. -/
theorem isIdentifier_front (h : scope.ScalesAt l f x φ) : IsIdentifier l := by
  refine h.name.of_append ?_
  rintro rfl
  have hunknown := h.unknown
  rw [String.empty_append, h.unary?_function] at hunknown
  cases hunknown

theorem function?_function (h : scope.ScalesAt l f x φ) : scope.function? f = some φ := by
  rw [function?, h.unary?_function, Option.some_or]

/-- Where products are implied, the name of the call stands for the scaled function. -/
theorem function? (h : scope.ScalesAt l f x φ) (himplied : scope.implied = true) :
    scope.function? (l ++ f) = some fun z ↦ x * φ z := by
  rw [Scope.function?, h.unknown, Option.none_or, impliedFunction?, if_pos himplied, h.split]
  rfl

end ScalesAt

end Scope

namespace Settings

variable {settings : Settings} {overrides : Vocabulary} {l r f exponent argument : String}
  {depth : ℕ} {x y z w : Float} {φ : Float → Float}

/-- A name that splits in two is one operand for its factors. -/
theorem oneOperand_of_splitsAt (himplied : settings.implied = true)
    (hsplits : settings.scope.SplitsAt l r x y) (hr : IsIdentifier r)
    (hexponent : settings.Denotes overrides .operand settings.depthLimit exponent w) :
    settings.OneOperand overrides (l ++ r) l r exponent 1 x y w := by
  have hfirst : settings.Denotes overrides .operand 1 l x :=
    .name hsplits.isIdentifier_front (Scope.number?_of_value? hsplits.front)
  have hsecond : settings.Denotes overrides .operand 1 r y :=
    .name hr (Scope.number?_of_value? hsplits.back)
  have hwhole : settings.Denotes overrides .operand 1 (l ++ r) (x * y) :=
    .name hsplits.name (hsplits.number? himplied)
  exact oneOperand_of_denotes himplied hwhole hfirst hsecond hr.beginsName hexponent.one_le
    hexponent

/-- A call whose name splits is one operand for the factor and the call of the function, however its
argument is written. -/
theorem oneOperand_of_scalesAt (himplied : settings.implied = true)
    (hscales : settings.scope.ScalesAt l f x φ) (hf : IsIdentifier f)
    (hargument : settings.Denotes overrides (.tier .additive) depth argument z)
    (hdepth : depth < settings.depthLimit)
    (hexponent : settings.Denotes overrides .operand settings.depthLimit exponent w) :
    settings.OneOperand overrides (l ++ f ++ "(" ++ argument ++ ")") l (f ++ "(" ++ argument ++ ")")
      exponent (depth + 1) x (φ z) w := by
  have hfirst : settings.Denotes overrides .operand (depth + 1) l x :=
    (Denotes.name hscales.isIdentifier_front (Scope.number?_of_value? hscales.front)).mono
      (Nat.le_add_left 1 depth)
  have hsecond : settings.Denotes overrides .operand (depth + 1) (f ++ "(" ++ argument ++ ")")
      (φ z) := hargument.call₁ hf hscales.function?_function
  have hwhole : settings.Denotes overrides .operand (depth + 1) (l ++ f ++ "(" ++ argument ++ ")")
      (x * φ z) :=
    Denotes.call₁ (f := fun z ↦ x * φ z) hscales.name (hscales.function? himplied) hargument
  have hbegins : BeginsName (f ++ "(" ++ argument ++ ")") :=
    ((hf.beginsName.append _).append _).append _
  exact oneOperand_of_denotes himplied hwhole hfirst hsecond hbegins hdepth hexponent

/-- **A name that splits is one operand**, whatever it splits into, and so is a call whose name
splits. -/
theorem oneOperand_of_split (himplied : settings.implied = true)
    (hexponent : settings.Denotes overrides .operand settings.depthLimit exponent w) :
    (∀ l r x y, settings.scope.SplitsAt l r x y → IsIdentifier r →
      settings.OneOperand overrides (l ++ r) l r exponent 1 x y w) ∧
    ∀ l f x φ argument z depth, settings.scope.ScalesAt l f x φ → IsIdentifier f →
      settings.Denotes overrides (.tier .additive) depth argument z →
      depth < settings.depthLimit →
      settings.OneOperand overrides (l ++ f ++ "(" ++ argument ++ ")") l
        (f ++ "(" ++ argument ++ ")") exponent (depth + 1) x (φ z) w :=
  ⟨fun _ _ _ _ hsplits hr ↦ oneOperand_of_splitsAt himplied hsplits hr hexponent,
    fun _ _ _ _ _ _ _ hscales hf hargument hdepth ↦
      oneOperand_of_scalesAt himplied hscales hf hargument hdepth hexponent⟩

/-! ### Where the exponent matters -/

/-- Values of `a`, `b` and `c`, and a function with the two names `h` and `.h`. -/
def powerSettings (x y z : Float) (φ : Float → Float) : Settings where
  vocabulary := ((((Vocabulary.bind {} ⟨.variable, "a"⟩ x).bind ⟨.variable, "b"⟩ y).bind
    ⟨.variable, "c"⟩ z).bind ⟨.unary, "h"⟩ φ).bind ⟨.unary, ".h"⟩ φ
  implied := true

section

variable (x y z : Float) (φ : Float → Float)

/-- The names below are names of formulas. -/
theorem isIdentifier_of_mem {word : String} (h : word ∈ ["b", "c", "h"]) : IsIdentifier word := by
  simp only [List.mem_cons, List.not_mem_nil, or_false] at h
  rcases h with rfl | rfl | rfl <;> exact .of_cons (by decide) (List.forall_mem_nil _)

/-- `ab` splits into `a` and `b`. -/
theorem splitsAt_powerSettings : (powerSettings x y z φ).scope.SplitsAt "a" "b" x y where
  name := @IsIdentifier.of_toList 'a' ['b'] _ rfl (by decide) (List.all_eq_true.1 (by decide))
  unknown := by cbv
  front := by cbv
  back := by cbv
  product := by
    have hsplit : (powerSettings x y z φ).scope.factor? "ab" =
        some (.front ['a'] x (.known ['b'] y)) := by
      cbv
    show (powerSettings x y z φ).scope.product? "ab" = some (x * y)
    rw [Scope.product?, hsplit]
    rfl

/-- `ah` and `a.h` both split behind `a`. -/
theorem scalesAt_powerSettings {function : String} (h : function ∈ ["h", ".h"]) :
    (powerSettings x y z φ).scope.ScalesAt "a" function x φ := by
  simp only [List.mem_cons, List.not_mem_nil, or_false] at h
  rcases h with rfl | rfl
  · exact ⟨@IsIdentifier.of_toList 'a' ['h'] _ rfl (by decide) (List.all_eq_true.1 (by decide)),
      by cbv, by cbv, by cbv⟩
  · exact ⟨@IsIdentifier.of_toList 'a' ['.', 'h'] _ rfl (by decide)
      (List.all_eq_true.1 (by decide)), by cbv, by cbv, by cbv⟩

theorem denotes_powerSettings (overrides : Vocabulary) :
    (powerSettings x y z φ).Denotes overrides .operand 1 "c" z :=
  .name (isIdentifier_of_mem (by simp)) (Scope.number?_of_value? (by cbv))

end

/-- The argument of the call splits too, and the exponent is a call itself. -/
theorem oneOperand_of_split_call :
    let square : Float → Float := fun z ↦ z * z
    let settings := powerSettings 2.0 3.0 2.0 square
    settings.implied = true ∧
      settings.Denotes {} .operand settings.depthLimit "h(c)" (square 2.0) ∧
      settings.scope.SplitsAt "a" "b" 2.0 3.0 ∧ IsIdentifier "b" ∧
      settings.scope.ScalesAt "a" "h" 2.0 square ∧ IsIdentifier "h" ∧
      settings.Denotes {} (.tier .additive) 1 "ab" (2.0 * 3.0) ∧ 1 < settings.depthLimit ∧
      settings.OneOperand {} "ab" "a" "b" "h(c)" 1 2.0 3.0 (square 2.0) ∧
      settings.OneOperand {} "ah(ab)" "a" "h(ab)" "h(c)" 2 2.0 (square (2.0 * 3.0))
        (square 2.0) := by
  intro square settings
  have hsplits : settings.scope.SplitsAt "a" "b" 2.0 3.0 := splitsAt_powerSettings ..
  have hscales : settings.scope.ScalesAt "a" "h" 2.0 square :=
    scalesAt_powerSettings _ _ _ _ (by simp)
  have hb : IsIdentifier "b" := isIdentifier_of_mem (by simp)
  have hh : IsIdentifier "h" := isIdentifier_of_mem (by simp)
  have hc : settings.Denotes {} .operand 1 "c" 2.0 := denotes_powerSettings ..
  have hexponent : settings.Denotes {} .operand settings.depthLimit "h(c)" (square 2.0) :=
    ((hc.tier .additive).call₁ hh hscales.function?_function).mono (by decide)
  have hargument : settings.Denotes {} (.tier .additive) 1 "ab" (2.0 * 3.0) :=
    (Denotes.name hsplits.name (hsplits.number? rfl)).tier .additive
  have hlimit : 1 < settings.depthLimit := by decide
  exact ⟨rfl, hexponent, hsplits, hb, hscales, hh, hargument, hlimit,
    (oneOperand_of_split rfl hexponent).1 "a" "b" 2.0 3.0 hsplits hb,
    (oneOperand_of_split rfl hexponent).2 "a" "h" 2.0 square "ab" (2.0 * 3.0) 1 hscales hh
      hargument hlimit⟩

/-- With a space in a name that splits, the exponent belongs to one factor only, so the value may be
another one. And what follows the space need not be a name any more. -/
theorem not_evaluates_alike :
    let square : Float → Float := fun z ↦ z * z
    let settings := powerSettings 2.0 3.0 2.0 square
    settings.scope.SplitsAt "a" "b" 2.0 3.0 ∧ IsIdentifier "b" ∧
      settings.scope.ScalesAt "a" "h" 2.0 square ∧ settings.scope.ScalesAt "a" ".h" 2.0 square ∧
      settings.Denotes {} .operand settings.depthLimit "c" 2.0 ∧
      (¬ ∃ value, settings.Evaluates {} "ab^c" value ∧ settings.Evaluates {} "a b^c" value) ∧
      (¬ ∃ value, settings.Evaluates {} "ah(c)^c" value ∧
        settings.Evaluates {} "a h(c)^c" value) ∧
      (∃ value, settings.Evaluates {} "a.h(c)^c" value) ∧
      ¬ ∃ value, settings.Evaluates {} "a .h(c)^c" value := by
  intro square settings
  have hsplits : settings.scope.SplitsAt "a" "b" 2.0 3.0 := splitsAt_powerSettings ..
  have hscales : settings.scope.ScalesAt "a" "h" 2.0 square :=
    scalesAt_powerSettings _ _ _ _ (by simp)
  have hscales' : settings.scope.ScalesAt "a" ".h" 2.0 square :=
    scalesAt_powerSettings _ _ _ _ (by simp)
  have hc : settings.Denotes {} .operand 1 "c" 2.0 := denotes_powerSettings ..
  have hexponent := hc.mono (Nat.le_add_left 1 63 : 1 ≤ settings.depthLimit)
  have hb : IsIdentifier "b" := isIdentifier_of_mem (by simp)
  have hh : IsIdentifier "h" := isIdentifier_of_mem (by simp)
  refine ⟨hsplits, hb, hscales, hscales', hexponent, ?_, ?_, ?_, ?_⟩
  · -- 36 and 18
    have hpowers := oneOperand_of_splitsAt rfl hsplits hb hexponent
    rintro ⟨value, hwhole, hfactors⟩
    refine absurd ((hpowers.whole.unique hwhole).trans (hpowers.factors.unique hfactors).symm) ?_
    decide +kernel
  · -- 64 and 32
    have hpowers := oneOperand_of_scalesAt rfl hscales hh (hc.tier .additive) (by decide) hexponent
    rintro ⟨value, hwhole, hfactors⟩
    refine absurd ((hpowers.whole.unique hwhole).trans (hpowers.factors.unique hfactors).symm) ?_
    decide +kernel
  · have hcall := Denotes.call₁ hscales'.name (hscales'.function? rfl) (hc.tier .additive)
    exact ⟨_, ((hcall.mono (by decide)).power hexponent).evaluates (Nat.le_refl _)⟩
  · -- behind a space the point starts nothing
    rintro ⟨value, formula, hparse, -⟩
    have hscan : scan "a .h(c)^c" = .error (.stray "." 3) := by
      decide +kernel
    rw [parse_of_scan_error hscan] at hparse
    cases hparse

end Settings

end Formulae
