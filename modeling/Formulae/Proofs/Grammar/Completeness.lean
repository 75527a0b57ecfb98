import Formulae.Proofs.Grammar.Rows
import Formulae.Proofs.Grammar.Unambiguity
import Formulae.Proofs.Parse.Progress

/-!
# Completeness of the plain parser

Where a phrase can be derived, and is left at a place that does not continue it, the plain parser
reads exactly that phrase: it stops at its end with its tree. The only other outcome is a rejection,
and that happens exactly when the phrase nests deeper than the levels that are left (`Reads`).

The proof is by induction on derivations. The parser chooses by the first token of an operand, so
the module starts with what each token makes of an operand (`alternatives_of_number` and so on).
What is left after an operand is decided by the loop of the chain: a joint makes it go on, and a
place that does not continue the chain makes its last trial miss.
-/

namespace Formulae

namespace Parser

/-! ### Operands by their first token -/

section

variable {input : Input} (operand : Parser Expr) {h : Head}

/-- An operand that starts with a number is that number. -/
theorem alternatives_of_number {value : Float}
    (htoken : input.token? h.position = some (.number value)) :
    alternatives input operand h = .ok (.constant value)
      (((h.entered.noted .identifier).noted .openParen).noted .identifier).advanced := by
  simp only [alternatives_apply, either_apply, call_apply, parenthesized_apply, name_apply,
    number_apply, Head.entered_position, htoken, Head.backTo_position, Option.some.injEq,
    reduceCtorEq, if_false]
  rfl

/-- An operand that starts with a name is that name, if no parenthesis touches it. -/
theorem alternatives_of_name {word : String}
    (htoken : input.token? h.position = some (.identifier word))
    (hopens : ¬ input.opens (h.position + 1)) :
    alternatives input operand h = .ok (input.scope.exprOfName word)
      ((((h.entered.advanced.noted .openParen).backTo h.position).noted .openParen).advanced.logged
        (input.scope.nameEvents word)) := by
  simp only [alternatives_apply, either_apply, call_apply, parenthesized_apply, name_apply,
    Head.entered_position, htoken, Head.backTo_position, hopens, Option.some.injEq, reduceCtorEq,
    if_false]
  rfl

/-- An operand that starts with a name and a parenthesis that touches it is a call, if it can be
read as one, and the name alone otherwise. -/
theorem alternatives_of_opens {word : String}
    (htoken : input.token? h.position = some (.identifier word))
    (hopens : input.opens (h.position + 1)) :
    alternatives input operand h =
      match arguments input operand word h.entered.advanced.advanced with
      | .ok e h₁ => .ok e h₁
      | .error .noMatch h₁ =>
        .ok (input.scope.exprOfName word)
          (((h₁.backTo h.position).noted .openParen).advanced.logged
            (input.scope.nameEvents word))
      | .error (.rejected r) h₁ => .error (.rejected r) h₁ := by
  simp only [alternatives_apply, either_apply, call_apply, parenthesized_apply, name_apply,
    Head.entered_position, htoken, Head.backTo_position, hopens, Option.some.injEq, reduceCtorEq,
    if_false, if_true]
  rcases arguments input operand word h.entered.advanced.advanced with ⟨e, h₁⟩ | ⟨- | r, h₁⟩
  all_goals rfl

/-- An operand that starts with a parenthesis is an expression in parentheses. -/
theorem alternatives_of_openParen
    (htoken : input.token? h.position = some (.glyph .openParen)) :
    alternatives input operand h =
      match (expression input operand >>= closed input) (h.entered.noted .identifier).advanced with
      | .ok e h₁ => .ok e h₁
      | .error .noMatch h₁ =>
        .error .noMatch ((((h₁.backTo h.position).noted .identifier).noted .number).noted .minus)
      | .error (.rejected r) h₁ => .error (.rejected r) h₁ := by
  simp only [alternatives_apply, either_apply, call_apply, parenthesized_apply, name_apply,
    number_apply, negation_apply, Head.entered_position, htoken, Head.backTo_position,
    Option.some.injEq, reduceCtorEq, Token.glyph.injEq, if_false, if_true]
  have hback : (h.entered.noted .identifier).backTo h.position = h.entered.noted .identifier := rfl
  rw [hback]
  rcases (expression input operand >>= closed input) (h.entered.noted .identifier).advanced with
    ⟨e, h₁⟩ | ⟨- | r, h₁⟩ <;> rfl

/-- An operand that starts with a sign is a negation. -/
theorem alternatives_of_minus (htoken : input.token? h.position = some (.glyph .minus)) :
    alternatives input operand h =
      if input.touching (h.position + 1) then
        negated operand ((((h.entered.noted .identifier).noted .openParen).noted .identifier).noted
          .number).advanced
      else .error .noMatch (((((h.entered.noted .identifier).noted .openParen).noted
        .identifier).noted .number).advanced.noted .touchingOperand) := by
  simp only [alternatives_apply, either_apply, call_apply, parenthesized_apply, name_apply,
    number_apply, negation_apply, Head.entered_position, htoken, Head.backTo_position,
    Option.some.injEq, reduceCtorEq, Token.glyph.injEq, if_false, if_true]
  rfl

/-- An operand does not start in any other way. -/
theorem alternatives_of_other (htoken : ∀ token, input.token? h.position = some token →
      token.startsOperand = false) :
    alternatives input operand h = .error .noMatch
      (((((h.entered.noted .identifier).noted .openParen).noted .identifier).noted .number).noted
        .minus) := by
  rcases htoken' : input.token? h.position with - | (value | word | glyph)
  case some.number => cases htoken _ htoken'
  case some.identifier => cases htoken _ htoken'
  case none =>
    simp only [alternatives_apply, either_apply, call_apply, parenthesized_apply, name_apply,
      number_apply, negation_apply, Head.entered_position, htoken', Head.backTo_position,
      reduceCtorEq, if_false]
    rfl
  case some.glyph =>
    have hopen : glyph ≠ .openParen := fun h ↦ by cases h; cases htoken _ htoken'
    have hminus : glyph ≠ .minus := fun h ↦ by cases h; cases htoken _ htoken'
    simp only [alternatives_apply, either_apply, call_apply, parenthesized_apply, name_apply,
      number_apply, negation_apply, Head.entered_position, htoken', Head.backTo_position,
      Option.some.injEq, Token.glyph.injEq, hopen, hminus, if_false]
    rfl

end

end Parser

/-! ### Reading -/

/-- The parser of the operands of a tier. -/
def Tier.below (input : Input) (operand : Parser Expr) : Tier → Parser Expr
  | additive => Parser.multiplicative input operand
  | multiplicative => Parser.exponent input operand
  | exponent => operand

/-- The parser of a nonterminal. For a rest it is the one of the operands that the rest joins. -/
def Nonterminal.parser (input : Input) (operand : Parser Expr) : Nonterminal → Parser Expr
  | tier t => Parser.chained input (t.chain input.scope) (t.below input operand)
  | rest t _ => t.below input operand
  | .operand => operand

theorem Parser.forward_below {input : Input} {depth : Nat} {operand : Parser Expr} (tier : Tier)
    (hoperand : Parser.Forward input depth 1 operand) :
    Parser.Forward input depth 1 (tier.below input operand) := by
  cases tier with
  | exponent => exact hoperand
  | multiplicative => exact Parser.forward_chained _ hoperand
  | additive => exact Parser.forward_chained _ (Parser.forward_chained _ hoperand)

@[simp]
theorem Tier.parser_inner (input : Input) (operand : Parser Expr) (tier : Tier) :
    tier.inner.parser input operand = tier.below input operand := by
  cases tier <;> rfl

/-- What comes of reading something that nests to a depth: with enough levels left, a value as
required that stops at the given place on the given level, and a rejection otherwise. -/
inductive Reads {α : Type} (levels nesting : Nat) (good : α → Prop) (j depth : Nat) :
    Parser.Result α → Prop where
  | ok {a : α} {h : Head} (hle : nesting ≤ levels) (hgood : good a) (hposition : h.position = j)
      (hdepth : h.depth = depth) : Reads levels nesting good j depth (.ok a h)
  | rejected {r : Rejection} {h : Head} (hlt : levels < nesting) :
      Reads levels nesting good j depth (.error (.rejected r) h)

section

variable {input : Input} {α β : Type} {levels nesting j k depth : Nat} {good : α → Prop} {h : Head}

/-- A parser reads what two parsers read one after the other. The second one is asked only where the
first one has stopped. -/
theorem Reads.bind {nesting' : Nat} {good' : β → Prop} {p : Parser α} {q : α → Parser β}
    (hp : Reads levels nesting good k depth (p h)) (hle : nesting ≤ nesting')
    (hq : ∀ a h₁, nesting ≤ levels → good a → h₁.position = k → h₁.depth = depth →
      Reads levels nesting' good' j depth (q a h₁)) :
    Reads levels nesting' good' j depth ((p >>= q) h) := by
  rw [Parser.bind_apply]
  match p h, hp with
  | .ok a h₁, .ok hfits hgood hposition hdepth => exact hq a h₁ hfits hgood hposition hdepth
  | .error (.rejected r) h₁, .rejected hlt => exact .rejected (Nat.lt_of_lt_of_le hlt hle)

/-- What is read on the level below takes one level more. -/
theorem Reads.deeper {result : Parser.Result α} (h : Reads levels nesting good j depth result) :
    Reads (levels + 1) (nesting + 1) good j depth result := by
  cases h with
  | ok hle hgood hposition hdepth => exact .ok (Nat.succ_le_succ hle) hgood hposition hdepth
  | rejected hlt => exact .rejected (Nat.succ_lt_succ hlt)

end

/-! ### Missing -/

section

variable {input : Input} {levels : Nat} {tier : Tier} {lhs : Phrase} {h : Head}

/-- An operand misses at a token that operands do not start with, if a level is left for it. -/
theorem operandBy_misses (hdepth : h.depth + levels = input.limit) (hpos : 0 < levels)
    (htoken : ∀ token, input.token? h.position = some token → token.startsOperand = false) :
    ∃ h', Parser.operandBy input id levels h = .error .noMatch h' := by
  rcases levels with - | below
  · cases hpos
  · have hmiss := Parser.alternatives_of_other (Parser.operandBy input id below)
      (h := h.atDepth (h.depth + 1)) htoken
    rw [Parser.operandBy_succ_apply, id, Parser.oneDeeper_apply, if_pos (by omega), hmiss]
    exact ⟨_, rfl⟩

/-- A chain without a first operand is none. -/
theorem chained_misses {chain : Chain} {operand : Parser Expr} {h' : Head}
    (hoperand : operand h = .error .noMatch h') :
    Parser.chained input chain operand h = .error .noMatch h' := by
  rw [Parser.chained_eq, Parser.bind_apply, hoperand]

/-- Where no operand can start, no tier finds one. -/
theorem below_misses (tier : Tier) (hdepth : h.depth + levels = input.limit) (hpos : 0 < levels)
    (htoken : ∀ token, input.token? h.position = some token → token.startsOperand = false) :
    ∃ h', tier.below input (Parser.operandBy input id levels) h = .error .noMatch h' := by
  obtain ⟨h', hmiss⟩ := operandBy_misses hdepth hpos htoken
  refine ⟨h', ?_⟩
  cases tier with
  | exponent => exact hmiss
  | multiplicative => exact chained_misses hmiss
  | additive => exact chained_misses (chained_misses hmiss)

/-- Where products are implied, a token that does not continue one starts no operand, but for the
sign. -/
theorem Tier.startsOperand_of_continuedBy {token : Token}
    (h : Tier.multiplicative.continuedBy true token = false) (hminus : token ≠ .glyph .minus) :
    token.startsOperand = false := by
  unfold Tier.continuedBy at h
  split at h <;> simp_all [Token.startsOperand]

/-- A link misses at a place that does not continue the chain. -/
theorem link_misses (hends : (Nonterminal.rest tier lhs).Ends input.row input.scope.implied
    h.position) (hdepth : h.depth + levels = input.limit) (hpos : 0 < levels) :
    ∃ h', Parser.link input (tier.chain input.scope)
      (tier.below input (Parser.operandBy input id levels)) h = .error .noMatch h' := by
  have hends' : ∀ token, input.token? h.position = some token →
      tier.continuedBy input.scope.implied token = false := by
    intro token htoken
    rw [← input.tokenAt?_row] at htoken
    exact hends token htoken
  have hoperator : (input.token? h.position).bind (tier.chain input.scope).operator? = none := by
    rcases htoken : input.token? h.position with - | token
    · rfl
    · rcases hop : tier.operator? token with - | op
      · exact hop
      · have hfalse := hends' token htoken
        rw [Tier.continuedBy_of_operator? hop] at hfalse
        cases hfalse
  rw [Parser.link_apply, Parser.continuation_apply, hoperator]
  -- Only factors are tried without an operator in front.
  by_cases himplied : tier = .multiplicative ∧ input.scope.implied = true
  · obtain ⟨rfl, himplied⟩ := himplied
    have hchain : (Tier.multiplicative.chain input.scope).implied = some .mul :=
      if_pos ⟨rfl, himplied⟩
    rw [hchain]
    by_cases hstop : input.token? h.position = none ∨
        input.token? h.position = some (.glyph .minus)
    · simp only [if_pos hstop]
      exact ⟨_, rfl⟩
    · simp only [if_neg hstop]
      -- A product is implied here, but no factor follows.
      obtain ⟨h', hmiss⟩ := below_misses (h := h.noted .operator) .multiplicative hdepth hpos
        fun token htoken ↦ by
          have hfalse := hends' token htoken
          rw [himplied] at hfalse
          exact Tier.startsOperand_of_continuedBy hfalse fun heq ↦ hstop (.inr (heq ▸ htoken))
      rw [hmiss]
      exact ⟨h', rfl⟩
  · have hchain : (tier.chain input.scope).implied = none := if_neg himplied
    rw [hchain]
    exact ⟨_, rfl⟩

end

/-! ### Links -/

section

variable {input : Input} {levels i j k l : Nat} {tier : Tier} {joint : Joint} {rhs : Phrase}
  {h : Head}

/-- A joint makes the parser go on with its operator. -/
theorem continuation_of_joins
    (hjoins : Joins input.row input.scope.implied tier h.position k joint)
    (hrhs : Derives input.row input.scope.implied tier.inner k l rhs) :
    ∃ h₁, Parser.continuation input (tier.chain input.scope) h = .ok joint.operator h₁ ∧
      h₁.position = k ∧ h₁.depth = h.depth := by
  rw [Parser.continuation_apply]
  cases hjoins with
  | @written _ _ token op htoken hop =>
    have hsome : (input.token? h.position).bind (tier.chain input.scope).operator? = some op := by
      rw [← input.tokenAt?_row, htoken]
      exact hop
    rw [hsome]
    exact ⟨_, rfl, rfl, rfl⟩
  | implied himplied hminus =>
    -- The factor behind the joint starts here, so no operator is written instead.
    obtain ⟨token, htoken, -⟩ := hrhs.exists_startsOperand rfl
    have hnone := Derives.operator?_eq_none_of_implied hrhs htoken
    rw [input.tokenAt?_row] at htoken hminus
    have hbind : (input.token? h.position).bind
        (Tier.multiplicative.chain input.scope).operator? = none := by
      rw [htoken]
      exact hnone
    have hchain : (Tier.multiplicative.chain input.scope).implied = some .mul :=
      if_pos ⟨rfl, himplied⟩
    have hgo : ¬ (input.token? h.position = none ∨
        input.token? h.position = some (.glyph .minus)) := by
      rintro (hend | hend)
      · rw [htoken] at hend
        cases hend
      · exact hminus hend
    rw [hbind, hchain]
    simp only [if_neg hgo]
    exact ⟨_, rfl, rfl, rfl⟩

/-- A joint and what is read behind it make a link. -/
theorem reads_link {operand : Parser Expr} {nesting : Nat} {good : Expr → Prop}
    (hjoins : Joins input.row input.scope.implied tier h.position k joint)
    (hrhs : Derives input.row input.scope.implied tier.inner k l rhs)
    (hoperand : ∀ h₁ : Head, h₁.position = k → h₁.depth = h.depth →
      Reads levels nesting good j h.depth (operand h₁)) :
    Reads levels nesting (fun (op, e) ↦ op = joint.operator ∧ good e) j h.depth
      (Parser.link input (tier.chain input.scope) operand h) := by
  obtain ⟨h₁, hok, hposition, hdepth⟩ := continuation_of_joins hjoins hrhs
  rw [Parser.link_apply, hok]
  dsimp only
  match operand h₁, hoperand h₁ hposition hdepth with
  | .ok e h₂, .ok hfits hgood hposition' hdepth' =>
    exact .ok hfits ⟨rfl, hgood⟩ hposition' hdepth'
  | .error (.rejected r) h₂, .rejected hlt => exact .rejected hlt

end

/-! ### Completeness -/

/-- The plain parser reads the phrase of a nonterminal, where it is not continued. For a rest, the
loop of the chain finds the links that fold to the phrase. -/
def Nonterminal.Complete (input : Input) (i j : Nat) (phrase : Phrase) : Nonterminal → Prop
  | rest t lhs =>
    (rest t lhs).Ends input.row input.scope.implied j →
      ∀ levels depth (h : Head) found trials, depth + levels = input.limit → h.position = i →
        h.depth = depth → lhs.nesting ≤ levels → input.lexemes.size - i < trials →
          Reads levels phrase.nesting
            (fun found' ↦ ∃ more, found' = found.reverse ++ more ∧
              t.associativity.fold (lhs.expr input.scope) more = phrase.expr input.scope)
            j depth
            (Parser.links input (t.chain input.scope)
              (t.below input (Parser.operandBy input id levels)) trials found h)
  | n =>
    n.Ends input.row input.scope.implied j →
      ∀ levels depth (h : Head), depth + levels = input.limit → h.position = i →
        h.depth = depth → Reads levels phrase.nesting (· = phrase.expr input.scope) j depth
          (n.parser input (Parser.operandBy input id levels) h)

variable {input : Input} {i j k l levels depth : Nat} {tier : Tier} {joint : Joint}
  {lhs rhs phrase : Phrase} {h : Head}

theorem Nonterminal.Complete.inner (hcomplete : tier.inner.Complete input i j phrase)
    (hends : tier.inner.Ends input.row input.scope.implied j)
    (hlimit : depth + levels = input.limit) (hposition : h.position = i)
    (hdepth : h.depth = depth) :
    Reads levels phrase.nesting (· = phrase.expr input.scope) j depth
      (tier.below input (Parser.operandBy input id levels) h) := by
  rw [← Tier.parser_inner]
  cases tier <;> exact hcomplete hends levels depth h hlimit hposition hdepth

/-- What stands before a rest does not nest deeper than the whole. -/
theorem Derives.nesting_le_of_rest {row : List Piece} {implied : Bool}
    (h : Derives row implied (.rest tier lhs) i j phrase) : lhs.nesting ≤ phrase.nesting := by
  generalize hn : Nonterminal.rest tier lhs = n at h
  induction h generalizing lhs with
  | stop =>
    cases hn
    exact Nat.le_refl _
  | left _ _ _ _ _ ih =>
    cases hn
    exact Nat.le_trans (Nat.le_max_left _ _) (ih rfl)
  | right =>
    cases hn
    exact Nat.le_max_left _ _
  | _ => cases hn

/-- An expression in front of a closing parenthesis or a comma is read as a whole. -/
theorem reads_expression (hcomplete : (Nonterminal.tier .additive).Complete input i j phrase)
    {glyph : Glyph} (hglyph : glyph = .closeParen ∨ glyph = .comma)
    (htoken : input.token? j = some (.glyph glyph)) (hlimit : depth + levels = input.limit)
    (hposition : h.position = i) (hdepth : h.depth = depth) :
    Reads levels phrase.nesting (· = phrase.expr input.scope) j depth
      (Parser.expression input (Parser.operandBy input id levels) h) := by
  rw [← input.tokenAt?_row] at htoken
  exact hcomplete (Derives.ends_of_glyph hglyph htoken) levels depth h hlimit hposition hdepth

/-- An operand is read as its body is, one level deeper. -/
theorem complete_operand (hbody : ∀ below depth (g : Head), depth + below = input.limit →
      g.position = i → g.depth = depth → Reads (below + 1) phrase.nesting
        (· = phrase.expr input.scope) j depth
        (Parser.alternatives input (Parser.operandBy input id below) g)) :
    Nonterminal.operand.Complete input i j phrase := by
  intro _ levels depth h hlimit hposition hdepth
  subst hdepth
  rcases levels with - | below
  · show Reads 0 _ _ _ _ (Parser.operandBy input id 0 h)
    rw [Parser.operandBy_zero_apply, id, Parser.oneDeeper_apply, if_neg (by omega)]
    exact .rejected phrase.nesting_pos
  · show Reads (below + 1) _ _ _ _ (Parser.operandBy input id (below + 1) h)
    have hread := hbody below (h.depth + 1) (h.atDepth (h.depth + 1)) (by omega) hposition rfl
    rw [Parser.operandBy_succ_apply, id, Parser.oneDeeper_apply, if_pos (by omega)]
    match Parser.alternatives input (Parser.operandBy input id below) (h.atDepth (h.depth + 1)),
      hread with
    | .ok e h₁, .ok hfits hgood hposition₁ hdepth₁ =>
      exact .ok hfits hgood hposition₁ (congrArg (· - 1) hdepth₁)
    | .error (.rejected r) h₁, .rejected hlt => exact .rejected hlt

/-- A call is read if its argument is. -/
theorem complete_call₁ {word : String} {argument : Phrase}
    (htoken : tokenAt? input.row i = some (.identifier word)) (hopens : Opens input.row (i + 1))
    (hargument : (Nonterminal.tier .additive).Complete input (i + 2) j argument)
    (hclose : tokenAt? input.row j = some (.glyph .closeParen)) :
    Nonterminal.operand.Complete input i (j + 1) (.call₁ word argument) := by
  refine complete_operand fun below depth g hlimit hposition hdepth ↦ ?_
  subst hposition
  rw [input.tokenAt?_row] at htoken hclose
  rw [input.opens_row_iff] at hopens
  have hargs : Reads below argument.nesting (· = (Phrase.call₁ word argument).expr input.scope)
      (j + 1) depth (Parser.arguments input (Parser.operandBy input id below) word
        g.entered.advanced.advanced) := by
    refine Reads.bind (reads_expression hargument (.inl rfl) hclose hlimit rfl hdepth)
      (Nat.le_refl _) ?_
    rintro _ h₁ hfits rfl rfl hdepth₁
    rw [Parser.afterFirst_apply, if_neg (by rw [hclose]; decide), if_pos hclose]
    exact .ok hfits rfl rfl hdepth₁
  rw [Parser.alternatives_of_opens _ htoken hopens]
  match Parser.arguments input (Parser.operandBy input id below) word _, hargs.deeper with
  | .ok e h₁, hreads => exact hreads
  | .error (.rejected r) h₁, hreads => exact hreads

theorem complete_call₂ {word : String} {first second : Phrase}
    (htoken : tokenAt? input.row i = some (.identifier word)) (hopens : Opens input.row (i + 1))
    (hfirst : (Nonterminal.tier .additive).Complete input (i + 2) j first)
    (hcomma : tokenAt? input.row j = some (.glyph .comma))
    (hsecond : (Nonterminal.tier .additive).Complete input (j + 1) k second)
    (hclose : tokenAt? input.row k = some (.glyph .closeParen)) :
    Nonterminal.operand.Complete input i (k + 1) (.call₂ word first second) := by
  refine complete_operand fun below depth g hlimit hposition hdepth ↦ ?_
  subst hposition
  rw [input.tokenAt?_row] at htoken hcomma hclose
  rw [input.opens_row_iff] at hopens
  have hargs : Reads below (max first.nesting second.nesting)
      (· = (Phrase.call₂ word first second).expr input.scope) (k + 1) depth
      (Parser.arguments input (Parser.operandBy input id below) word
        g.entered.advanced.advanced) := by
    refine Reads.bind (reads_expression hfirst (.inr rfl) hcomma hlimit rfl hdepth)
      (Nat.le_max_left _ _) ?_
    rintro _ h₁ hfits₁ rfl rfl hdepth₁
    rw [Parser.afterFirst_apply, if_pos hcomma]
    refine Reads.bind (reads_expression hsecond (.inl rfl) hclose hlimit rfl hdepth₁)
      (Nat.le_max_right _ _) ?_
    rintro _ h₂ hfits₂ rfl rfl hdepth₂
    rw [Parser.closed_apply, if_pos hclose]
    exact .ok (Nat.max_le.2 ⟨hfits₁, hfits₂⟩) rfl rfl hdepth₂
  rw [Parser.alternatives_of_opens _ htoken hopens]
  match Parser.arguments input (Parser.operandBy input id below) word _, hargs.deeper with
  | .ok e h₁, hreads => exact hreads
  | .error (.rejected r) h₁, hreads => exact hreads

theorem complete_parens (hopen : tokenAt? input.row i = some (.glyph .openParen))
    (hinner : (Nonterminal.tier .additive).Complete input (i + 1) j phrase)
    (hclose : tokenAt? input.row j = some (.glyph .closeParen)) :
    Nonterminal.operand.Complete input i (j + 1) (.parens phrase) := by
  refine complete_operand fun below depth g hlimit hposition hdepth ↦ ?_
  subst hposition
  rw [input.tokenAt?_row] at hopen hclose
  have hread : Reads below phrase.nesting (· = (Phrase.parens phrase).expr input.scope) (j + 1)
      depth ((Parser.expression input (Parser.operandBy input id below) >>=
        Parser.closed input) (g.entered.noted .identifier).advanced) := by
    refine Reads.bind (reads_expression hinner (.inl rfl) hclose hlimit rfl hdepth)
      (Nat.le_refl _) ?_
    rintro _ h₁ hfits rfl rfl hdepth₁
    rw [Parser.closed_apply, if_pos hclose]
    exact .ok hfits rfl rfl hdepth₁
  rw [Parser.alternatives_of_openParen _ hopen]
  match (Parser.expression input (Parser.operandBy input id below) >>= Parser.closed input) _,
    hread.deeper with
  | .ok e h₁, hreads => exact hreads
  | .error (.rejected r) h₁, hreads => exact hreads

/-- A negation is read if the operand that touches its sign is. -/
theorem complete_negative (hminus : tokenAt? input.row i = some (.glyph .minus))
    (htouches : Touches input.row (i + 1))
    (hoperand : Nonterminal.operand.Complete input (i + 1) j phrase) :
    Nonterminal.operand.Complete input i j (.negative phrase) := by
  refine complete_operand fun below depth g hlimit hposition hdepth ↦ ?_
  subst hposition
  rw [input.tokenAt?_row] at hminus
  rw [input.touches_row_iff] at htouches
  rw [Parser.alternatives_of_minus _ hminus, if_pos htouches]
  refine Reads.deeper (Reads.bind (hoperand trivial below depth _ hlimit ?_ ?_)
    (Nat.le_refl _) ?_)
  · rfl
  · exact hdepth
  · rintro _ h₁ hfits rfl hposition₁ hdepth₁
    exact .ok hfits rfl hposition₁ hdepth₁

/-- A chain is read if its first operand and its links are. -/
theorem complete_chain {first : Phrase}
    (hrest : Derives input.row input.scope.implied (.rest tier first) k j phrase)
    (hfirst : tier.inner.Complete input i k first)
    (hlinks : (Nonterminal.rest tier first).Complete input k j phrase) :
    (Nonterminal.tier tier).Complete input i j phrase := by
  intro hends levels depth h hlimit hposition hdepth
  rw [Nonterminal.parser, Parser.chained_eq]
  refine Reads.bind (hfirst.inner (hrest.ends_inner hends) hlimit hposition hdepth)
    hrest.nesting_le_of_rest ?_
  rintro _ h₁ hfits rfl rfl hdepth₁
  have hread := hlinks hends levels depth (h₁.logged [.firstOperand tier (first.expr input.scope)])
    [] (input.lexemes.size - h₁.position + 1) hlimit rfl hdepth₁ hfits (Nat.lt_succ_self _)
  rw [Parser.linked_apply]
  match Parser.links input (tier.chain input.scope) _ _ [] _, hread with
  | .ok rest h₂, .ok hfits' ⟨more, hmore, hfold⟩ hposition' hdepth' =>
    refine .ok hfits' ?_ hposition' hdepth'
    rw [hmore]
    exact hfold
  | .error (.rejected r) h₂, .rejected hlt => exact .rejected hlt

theorem complete_stop : (Nonterminal.rest tier lhs).Complete input i i lhs := by
  intro hends levels depth h found trials hlimit hposition hdepth hfits htrials
  subst hposition hdepth
  have hpos : 0 < levels := Nat.lt_of_lt_of_le lhs.nesting_pos hfits
  obtain ⟨h', hmiss⟩ := link_misses hends hlimit hpos
  rcases trials with - | trials
  · cases htrials
  · have hforward := Parser.forward_link (tier.chain input.scope)
      (Parser.forward_below tier (Parser.forward_operandBy_id (Nat.le_of_eq hlimit.symm)))
    rw [Parser.links_succ_apply, hmiss]
    exact .ok hfits ⟨[], (List.append_nil _).symm, by cases tier <;> rfl⟩ rfl
      (hforward.missed rfl hmiss).depth_eq

/-- One link is read, and the rest behind it, as long as that begins with what the link makes of the
chain. -/
theorem complete_link {lhs' phrase' : Phrase}
    (hjoins : Joins input.row input.scope.implied tier i k joint)
    (hrhs : Derives input.row input.scope.implied tier.inner k l rhs)
    (hrest : Derives input.row input.scope.implied (.rest tier lhs') l j phrase')
    (hinner : tier.inner.Complete input k l rhs)
    (hlinks : (Nonterminal.rest tier lhs').Complete input l j phrase')
    (hnesting : phrase.nesting = max lhs.nesting (max rhs.nesting phrase'.nesting))
    (hlhs' : lhs'.nesting ≤ max lhs.nesting rhs.nesting)
    (hfold : ∀ more, tier.associativity.fold (lhs'.expr input.scope) more =
      phrase'.expr input.scope → tier.associativity.fold (lhs.expr input.scope)
        ((joint.operator, rhs.expr input.scope) :: more) = phrase.expr input.scope) :
    (Nonterminal.rest tier lhs).Complete input i j phrase := by
  intro hends levels depth h found trials hlimit hposition hdepth hfits htrials
  subst hposition hdepth
  have hi := hjoins.le
  have hk := hrhs.lt_of_inner
  obtain ⟨token, htoken, -⟩ := hrhs.exists_startsOperand tier.width_inner
  have hsize := lt_length_of_tokenAt? htoken
  rw [input.length_row] at hsize
  -- The operand takes a token, so a trial fewer is still enough behind it.
  rcases trials with - | trials
  · cases htrials
  have hread := reads_link (j := l) hjoins hrhs fun h₁ hposition₁ hdepth₁ ↦
    hinner.inner (hrest.ends_inner hends) hlimit hposition₁ hdepth₁
  rw [Parser.links_succ_apply]
  match Parser.link input (tier.chain input.scope) _ h, hread with
  | .ok (op, e) h₁, .ok hfits₁ ⟨hop, he⟩ hposition₁ hdepth₁ =>
    subst hop he
    have hread' := hlinks hends levels h.depth
      (h₁.logged [.link tier joint.operator (rhs.expr input.scope)])
      ((joint.operator, rhs.expr input.scope) :: found) trials hlimit hposition₁ hdepth₁
      (by omega) (by omega)
    dsimp only
    match Parser.links input (tier.chain input.scope) _ trials _ _, hread' with
    | .ok found' h₂, .ok hfits₂ ⟨more, hmore, hmore'⟩ hposition₂ hdepth₂ =>
      refine .ok (by omega) ⟨_, ?_, hfold more hmore'⟩ hposition₂ hdepth₂
      rw [hmore, List.reverse_cons, List.append_assoc]
      rfl
    | .error (.rejected r) h₂, .rejected hlt => exact .rejected (by omega)
  | .error (.rejected r) h₁, .rejected hlt => exact .rejected (by omega)

/-- **The plain parser is complete.** It reads every phrase that can be derived, and nothing else
makes it fail there than a phrase that nests too deep. -/
theorem complete_of_derives {n : Nonterminal}
    (h : Derives input.row input.scope.implied n i j phrase) : n.Complete input i j phrase := by
  induction h with
  | number htoken =>
    refine complete_operand fun below depth g hlimit hposition hdepth ↦ ?_
    subst hposition
    rw [input.tokenAt?_row] at htoken
    rw [Parser.alternatives_of_number _ htoken]
    exact .ok (Nat.le_add_left _ _) rfl rfl hdepth
  | name htoken hopens =>
    refine complete_operand fun below depth g hlimit hposition hdepth ↦ ?_
    subst hposition
    rw [input.tokenAt?_row] at htoken
    rw [input.opens_row_iff] at hopens
    rw [Parser.alternatives_of_name _ htoken hopens]
    exact .ok (Nat.le_add_left _ _) rfl rfl hdepth
  | call₁ htoken hopens _ hclose ih => exact complete_call₁ htoken hopens ih hclose
  | call₂ htoken hopens _ hcomma _ hclose ih₁ ih₂ =>
    exact complete_call₂ htoken hopens ih₁ hcomma ih₂ hclose
  | parens hopen _ hclose ih => exact complete_parens hopen ih hclose
  | negative hminus htouches _ ih => exact complete_negative hminus htouches ih
  | chain _ hrest ih₁ ih₂ => exact complete_chain hrest ih₁ ih₂
  | stop => exact complete_stop
  | @left tier i j k l joint lhs rhs phrase hleft hjoins hrhs hrest ih₁ ih₂ =>
    have hle := hrest.nesting_le_of_rest
    rw [Phrase.nesting] at hle
    refine complete_link hjoins hrhs hrest ih₁ ih₂ (by omega) (Nat.le_refl _) ?_
    rw [hleft]
    exact fun _ hmore ↦ hmore
  | @right tier i j k l joint lhs rhs phrase hright hjoins hrhs hrest ih₁ ih₂ =>
    have hle := hrest.nesting_le_of_rest
    refine complete_link hjoins hrhs hrest ih₁ ih₂ ?_ (Nat.le_max_right _ _) ?_
    · rw [Phrase.nesting]
      omega
    · -- the links behind fold first
      rw [hright]
      exact fun _ hmore ↦ congrArg (joint.operator.combine (lhs.expr input.scope)) hmore

end Formulae
