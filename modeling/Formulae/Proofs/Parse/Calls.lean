import Formulae.Parse.Program
import Formulae.Proofs.Grammar.Completeness
import Formulae.Proofs.Parse.Chaining
import Formulae.Proofs.Parse.Store
import Mathlib.Logic.Relation

/-!
# Calls

A parse is a tree of calls. The parser of a tier calls the one of the tier inside it, once in front
of its links and once for every link and for the trial behind them; an operand whose outcome is not
stored calls expressions behind its parentheses and an operand behind its sign. `Calls` is this
relation: a call is a rule, the nesting levels that are left, and the head it starts from. It leaves
nothing out, since a parser that answers these calls alike is as good as the one of the library
(`Calls.chained_eq`, `BodyCalls.alternatives_eq`).

Every call that is reached from the call for a whole text starts from an orderly head
(`Call.Ready`), because each call hands on a head that was only moved by the rules. So each of them
advances (`Call.Advances`), and there is no way to go on calling for ever: a call starts further on
in the text than its caller, or else in the same place for a rule that binds more tightly. The bound
on how deeply calls can be nested in one another depends on the text alone, and not on the limit.
-/

namespace Formulae

/-! ### Rules over an operand -/

/-- The parser of a rule over a parser of operands. -/
def Rule.over (input : Input) (p : Parser Expr) : Rule → Parser Expr
  | expression => Parser.expression input p
  | additive => Parser.additive input p
  | multiplicative => Parser.multiplicative input p
  | exponent => Parser.exponent input p
  | operand => p

/-- The parser of a rule with some nesting levels left. It shares the outcomes of operands. -/
def Rule.within (input : Input) (levels : Nat) (rule : Rule) : Parser Expr :=
  rule.over input (Parser.operandBy input Parser.onceBySite levels)

/-- How loosely a rule binds. -/
def Rule.rank : Rule → Nat
  | expression => 4
  | additive => 3
  | multiplicative => 2
  | exponent => 1
  | operand => 0

theorem Rule.rank_le (rule : Rule) : rule.rank ≤ 4 := by
  cases rule <;> decide

/-- The rule of a tier. -/
def Tier.rule : Tier → Rule
  | additive => .additive
  | multiplicative => .multiplicative
  | exponent => .exponent

/-- The rule of the operands of a tier. -/
def Tier.innerRule : Tier → Rule
  | additive => .multiplicative
  | multiplicative => .exponent
  | exponent => .operand

theorem Tier.rank_innerRule_lt (tier : Tier) : tier.innerRule.rank < tier.rule.rank := by
  cases tier <;> decide

theorem Tier.over_rule (tier : Tier) (input : Input) (operand : Parser Expr) :
    tier.rule.over input operand =
      Parser.chained input (tier.chain input.scope) (tier.innerRule.over input operand) := by
  cases tier <;> rfl

/-! ### Calls -/

/-- A call of the parser of a rule from a head, with some nesting levels left. -/
structure Call where
  rule : Rule
  levels : Nat
  head : Head

namespace Call

variable (input : Input)

/-- What the call comes to. -/
def result (c : Call) : Parser.Result Expr :=
  c.rule.within input c.levels c.head

/-- The call that reads a whole text. -/
def start : Call :=
  ⟨.expression, input.limit, {}⟩

end Call

/-- The head on the level below, where the body of an operand was begun. -/
def Head.inBody (h : Head) : Head :=
  (h.atDepth (h.depth + 1)).entered

section

variable (input : Input)

/-- What the body of an operand calls. The body starts from the given head and has the given number
of levels left. -/
inductive BodyCalls (levels : Nat) (h : Head) : Call → Prop where
  | argument {name : String} (hname : input.token? h.position = some (.identifier name))
      (hopens : input.opens (h.position + 1)) :
      BodyCalls levels h ⟨.expression, levels, h.advanced.advanced⟩
  | secondArgument {name : String} {first : Expr} {h₁ : Head}
      (hname : input.token? h.position = some (.identifier name))
      (hopens : input.opens (h.position + 1))
      (hfirst : Call.result input ⟨.expression, levels, h.advanced.advanced⟩ = .ok first h₁)
      (hcomma : input.token? h₁.position = some (.glyph .comma)) :
      BodyCalls levels h ⟨.expression, levels, h₁.advanced⟩
  | parenthesized (hopen : input.token? h.position = some (.glyph .openParen)) :
      BodyCalls levels h ⟨.expression, levels, (h.noted .identifier).advanced⟩
  | negated (hminus : input.token? h.position = some (.glyph .minus))
      (htouching : input.touching (h.position + 1)) :
      BodyCalls levels h
        ⟨.operand, levels, ((((h.noted .identifier).noted .openParen).noted .identifier).noted
          .number).advanced⟩

/-- The first call calls the second one, with no other call in between. -/
inductive Calls : Call → Call → Prop where
  | expression (levels : Nat) (h : Head) : Calls ⟨.expression, levels, h⟩ ⟨.additive, levels, h⟩
  | firstOperand (tier : Tier) (levels : Nat) (h : Head) :
      Calls ⟨tier.rule, levels, h⟩ ⟨tier.innerRule, levels, h⟩
  /-- The operand behind an operator is called for, whether it turns out to match or not. -/
  | nextOperand (tier : Tier) {levels : Nat} {h h₁ last h₀ : Head} {first : Expr}
      {links : List (Operator × Expr)} {op : Operator}
      (hfirst : Call.result input ⟨tier.innerRule, levels, h⟩ = .ok first h₁)
      (hrun : (tier.chain input.scope).Run input (tier.innerRule.within input levels)
        (h₁.logged [.firstOperand tier first]) links last)
      (hop : (tier.chain input.scope).ContinuesAt input last op h₀) :
      Calls ⟨tier.rule, levels, h⟩ ⟨tier.innerRule, levels, h₀⟩
  | body {levels : Nat} {h : Head} {c : Call} (hfresh : h.site ∉ h.operands)
      (hlt : h.depth < input.limit) (hbody : BodyCalls input levels h.inBody c) :
      Calls ⟨.operand, levels + 1, h⟩ c

/-- A call that comes up when a whole text is read. -/
def Reached (c : Call) : Prop :=
  Relation.ReflTransGen (Calls input) (Call.start input) c

end

/-! ### Nothing else is called -/

section

variable {input : Input} {chain : Chain} {p q : Parser Expr} {levels : Nat} {h : Head}

/-- Two parsers that agree on the heads behind the operators of a run cannot be told apart by its
loop. -/
theorem Parser.links_congr (trials : Nat) (found : List (Operator × Expr))
    (hagree : ∀ links last op h₀, chain.Run input p h links last →
      chain.ContinuesAt input last op h₀ → q h₀ = p h₀) :
    Parser.links input chain q trials found h = Parser.links input chain p trials found h := by
  induction trials generalizing found h with
  | zero => rfl
  | succ trials ih =>
    have hlink : Parser.link input chain q h = Parser.link input chain p h := by
      rw [Parser.link_apply, Parser.link_apply]
      rcases hop : Parser.continuation input chain h with ⟨op, h₀⟩ | ⟨stop, h₀⟩
      · dsimp only
        rw [hagree [] h op h₀ (.stop h) (Chain.continuation_eq_ok_iff.1 hop)]
      · rfl
    rw [Parser.links_succ_apply, Parser.links_succ_apply, hlink]
    rcases hfound : Parser.link input chain p h with ⟨link, h₁⟩ | ⟨- | r, h₁⟩
    · exact ih _ fun links last op h₀ hrun hop ↦
        hagree _ last op h₀ (.more (Chain.link_eq_ok_iff.1 hfound) hrun) hop
    · rfl
    · rfl

/-- The parser of a tier asks its operands for nothing but what it calls. -/
theorem Calls.chained_eq {tier : Tier}
    (hagree : ∀ h', Calls input ⟨tier.rule, levels, h⟩ ⟨tier.innerRule, levels, h'⟩ →
      q h' = tier.innerRule.within input levels h') :
    Parser.chained input (tier.chain input.scope) q h =
      Call.result input ⟨tier.rule, levels, h⟩ := by
  have hresult : Call.result input ⟨tier.rule, levels, h⟩ = Parser.chained input
      (tier.chain input.scope) (tier.innerRule.within input levels) h :=
    congrFun (tier.over_rule input _) h
  rw [hresult, Parser.chained_eq, Parser.chained_eq, Parser.bind_apply, Parser.bind_apply,
    hagree h (.firstOperand tier levels h)]
  rcases hfirst : tier.innerRule.within input levels h with ⟨first, h₁⟩ | ⟨stop, h₁⟩
  · have hlinks := Parser.links_congr (input.lexemes.size - h₁.position + 1) []
      fun links last op h₀ hrun hop ↦ hagree h₀ (.nextOperand tier hfirst hrun hop)
    dsimp only
    rw [Parser.linked_apply, Parser.linked_apply]
    dsimp only [Tier.chain] at hlinks ⊢
    rw [hlinks]
  · rfl

/-- The arguments of a call are read by the expressions that are called for: the first one, and
the second one behind a comma. -/
theorem BodyCalls.arguments_eq {name : String}
    (hname : input.token? h.position = some (.identifier name))
    (hopens : input.opens (h.position + 1))
    (hagree : ∀ h', BodyCalls input levels h ⟨.expression, levels, h'⟩ →
      Parser.expression input q h' =
        Parser.expression input (Parser.operandBy input Parser.onceBySite levels) h') :
    Parser.arguments input q name h.advanced.advanced =
      Parser.arguments input (Parser.operandBy input Parser.onceBySite levels) name
        h.advanced.advanced := by
  rw [Parser.arguments, Parser.arguments, Parser.bind_apply, Parser.bind_apply,
    hagree _ (.argument hname hopens)]
  rcases hfirst : Parser.expression input (Parser.operandBy input Parser.onceBySite levels)
    h.advanced.advanced with ⟨first, h₁⟩ | ⟨stop, h₁⟩
  · dsimp only
    rw [Parser.afterFirst_apply, Parser.afterFirst_apply]
    by_cases hcomma : input.token? h₁.position = some (.glyph .comma)
    · rw [if_pos hcomma, if_pos hcomma, Parser.bind_apply, Parser.bind_apply,
        hagree _ (.secondArgument hname hopens hfirst hcomma)]
    · rw [if_neg hcomma, if_neg hcomma]
  · rfl

/-- The body of an operand asks for nothing but what it calls. -/
theorem BodyCalls.alternatives_eq
    (hagree : ∀ rule h', BodyCalls input levels h.entered ⟨rule, levels, h'⟩ →
      rule.over input q h' = rule.within input levels h') :
    Parser.alternatives input q h =
      Parser.alternatives input (Parser.operandBy input Parser.onceBySite levels) h := by
  set p := Parser.operandBy input Parser.onceBySite levels
  have hexpression (h' : Head)
      (hbody : BodyCalls input levels h.entered ⟨.expression, levels, h'⟩) :
      Parser.expression input q h' = Parser.expression input p h' := hagree _ _ hbody
  rcases htoken : input.token? h.position with - | (value | name | glyph)
  case some.identifier =>
    by_cases hopens : input.opens (h.position + 1)
    · rw [Parser.alternatives_of_opens q htoken hopens,
        Parser.alternatives_of_opens p htoken hopens,
        arguments_eq (h := h.entered) htoken hopens hexpression]
    · rw [Parser.alternatives_of_name q htoken hopens, Parser.alternatives_of_name p htoken hopens]
  case some.number =>
    rw [Parser.alternatives_of_number q htoken, Parser.alternatives_of_number p htoken]
  case none =>
    have hnone (token : Token) (hsome : input.token? h.position = some token) :
        token.startsOperand = false := by
      rw [htoken] at hsome
      cases hsome
    rw [Parser.alternatives_of_other q hnone, Parser.alternatives_of_other p hnone]
  case some.glyph =>
    by_cases hopen : glyph = .openParen
    · subst hopen
      rw [Parser.alternatives_of_openParen q htoken, Parser.alternatives_of_openParen p htoken,
        Parser.bind_apply, Parser.bind_apply, hexpression _ (.parenthesized htoken)]
    by_cases hminus : glyph = .minus
    · subst hminus
      rw [Parser.alternatives_of_minus q htoken, Parser.alternatives_of_minus p htoken]
      split
      · rename_i htouching
        have hoperand : q _ = p _ := hagree .operand _ (.negated htoken htouching)
        rw [Parser.negated, Parser.negated, Parser.bind_apply, Parser.bind_apply, hoperand]
      · rfl
    have hnone (token : Token) (hsome : input.token? h.position = some token) :
        token.startsOperand = false := by
      rw [htoken] at hsome
      cases hsome
      cases glyph <;> first | rfl | contradiction
    rw [Parser.alternatives_of_other q hnone, Parser.alternatives_of_other p hnone]

end

/-! ### Moves along a chain -/

namespace Conduct

variable {input : Input} {C : Conduct input} {chain : Chain} {operand : Parser Expr}
  {h h₀ h₁ last : Head} {op : Operator} {link : Operator × Expr} {links : List (Operator × Expr)}

theorem moves_of_continuesAt (hlenient : C.Lenient) (hh : C.holds h)
    (hop : chain.ContinuesAt input h op h₀) : C.moves 0 h h₀ := by
  have hmoves := governs_continuation hlenient chain h hh
  rwa [Chain.continuation_eq_ok_iff.2 hop] at hmoves

theorem moves_of_hasLink (hlenient : C.Lenient) (hoperand : C.Governs 1 operand) (hh : C.holds h)
    (hlink : chain.HasLink input operand h link h₁) : C.moves 1 h h₁ := by
  have hmoves := governs_link hlenient chain hoperand h hh
  rwa [Chain.link_eq_ok_iff.2 hlink] at hmoves

/-- Each link of a run consumes something. -/
theorem moves_of_run (hlenient : C.Lenient) (hoperand : C.Governs 1 operand) (hh : C.holds h)
    (hrun : chain.Run input operand h links last) : C.moves links.length h last := by
  induction hrun with
  | stop h => exact C.moves_refl hh
  | @more h h₁ last link links hlink _ ih =>
    have hmoves := C.moves_logged [.link chain.tier link.1 link.2]
      (moves_of_hasLink hlenient hoperand hh hlink)
    rw [List.length_cons, Nat.add_comm]
    exact C.moves_trans hmoves (ih (C.holds_of_moves hh hmoves))

theorem governs_over (hlenient : C.Lenient) (hoperand : C.Governs 1 operand) (rule : Rule) :
    C.Governs 1 (rule.over input operand) := by
  have hexponent := governs_chained hlenient (Tier.exponent.chain input.scope) hoperand
  have hmultiplicative := governs_chained hlenient (Tier.multiplicative.chain input.scope) hexponent
  have hadditive := governs_chained hlenient (Tier.additive.chain input.scope) hmultiplicative
  cases rule with
  | expression => exact hadditive
  | additive => exact hadditive
  | multiplicative => exact hmultiplicative
  | exponent => exact hexponent
  | operand => exact hoperand

end Conduct

/-! ### The level -/

/-- The conduct of keeping to the level, whatever comes of it. -/
def Conduct.level (input : Input) (depth : Nat) : Conduct input where
  holds h := h.depth = depth
  moves _ h h' := h'.depth = h.depth
  misses h h' := h'.depth = h.depth
  stops h h' := h'.depth = h.depth
  moves_refl _ := rfl
  moves_trans hmoves hmoves' := hmoves'.trans hmoves
  moves_mono hmoves _ := hmoves
  holds_of_moves hh hmoves := hmoves.trans hh
  misses_after hmoves hmisses := hmisses.trans hmoves
  stops_after hmoves hstops := hstops.trans hmoves
  moves_logged _ hmoves := hmoves
  moves_advanced _ _ := rfl
  moves_noted _ _ := rfl
  misses_noted _ _ := rfl
  moves_backTo _ hmisses := hmisses

namespace Conduct

variable {input : Input} {depth : Nat} {h : Head}

theorem lenient_level (input : Input) (depth : Nat) : (level input depth).Lenient where
  moves_operator _ := rfl
  misses_operator _ := rfl

theorem allows_level_iff {α : Type} {stride : Nat} {result : Parser.Result α} :
    (level input depth).Allows stride h result ↔ result.head.depth = h.depth := by
  rcases result with ⟨a, h'⟩ | ⟨- | r, h'⟩ <;> exact Iff.rfl

theorem governs_level_onceBySite {p : Parser Expr} (hp : (level input depth).Governs 1 p) :
    (level input depth).Governs 1 (Parser.onceBySite p) := by
  intro h hh
  have hinner := allows_level_iff.1 (hp h hh)
  rw [Parser.onceBySite, allows_level_iff]
  rcases hreplay : Parser.replay? h with - | result
  · exact (Parser.depth_remembered h (p h)).trans hinner
  · obtain ⟨i, hhead⟩ := Parser.head_of_replay? h hreplay
    exact (congrArg Head.depth hhead :)

theorem governs_level_oneDeeper {p : Parser Expr} (hp : (level input (depth + 1)).Governs 1 p) :
    (level input depth).Governs 1 (Parser.oneDeeper input p) := by
  intro h hh
  rw [Parser.oneDeeper_apply, allows_level_iff]
  split
  · have hinner := allows_level_iff.1 (hp (h.atDepth (h.depth + 1)) (congrArg (· + 1) hh))
    rw [Parser.head_surfaced]
    exact congrArg (· - 1) hinner
  · rfl

/-- An operand ends on the level where it was called, even if the text is rejected in it. -/
theorem governs_level_operandBy (input : Input) (levels depth : Nat) :
    (level input depth).Governs 1 (Parser.operandBy input Parser.onceBySite levels) := by
  induction levels generalizing depth with
  | zero => exact governs_level_onceBySite (governs_level_oneDeeper fun h hh ↦ rfl)
  | succ levels ih =>
    refine governs_level_onceBySite (governs_level_oneDeeper fun h hh ↦ ?_)
    have hoperand := ih (depth + 1)
    have hbody : (level input (depth + 1)).Allows 1 h.entered _ :=
      allows_alternatives (governs_expression (lenient_level input _) hoperand) hoperand hh
    rw [allows_level_iff] at hbody ⊢
    exact hbody

end Conduct

/-! ### Reached calls -/

namespace Call

/-- The call starts from a head as an orderly parse leaves it, and its levels reach the limit. -/
structure Ready (input : Input) (c : Call) : Prop where
  holds : (Conduct.store input c.head.depth).holds c.head
  depth_add_levels : c.head.depth + c.levels = input.limit

/-- How much longer calls can go on below the call: it decreases with every token that is read, and
with every tier that is entered. -/
def reserve (input : Input) (c : Call) : Nat :=
  5 * (input.lexemes.size - c.head.position) + c.rule.rank

variable {input : Input} {c c' : Call} {rule : Rule} {levels stride : Nat} {h h₁ : Head} {e : Expr}

/-- A whole text is read by the first call, with nothing behind it but the check for its end. -/
theorem run_eq_start (input : Input) :
    Settings.run input =
      ((start input).rule.within input (start input).levels >>= Parser.ended input)
        (start input).head :=
  rfl

theorem ready_start (input : Input) : (start input).Ready input :=
  ⟨⟨rfl, Settings.orderly_default input, nofun⟩, Nat.zero_add _⟩

/-- A head that was only moved can be handed on. -/
theorem Ready.of_leads (hready : Ready input ⟨rule, levels, h⟩) (hleads : h.Leads input stride h₁)
    (rule' : Rule) : Ready input ⟨rule', levels, h₁⟩ where
  holds := ⟨rfl, hleads.orderly, hleads.settled⟩
  depth_add_levels := hleads.depth_eq ▸ hready.depth_add_levels

theorem Ready.inBody (hready : Ready input ⟨rule, levels + 1, h⟩) (hfresh : h.site ∉ h.operands)
    (hlt : h.depth < input.limit) : Ready input ⟨rule, levels, h.inBody⟩ where
  holds := ⟨rfl, hready.holds.2.1.entered hready.holds.2.2 hfresh hlt, hready.holds.2.2.entered⟩
  depth_add_levels := by
    rw [← hready.depth_add_levels]
    show h.depth + 1 + levels = h.depth + (levels + 1)
    omega

theorem Ready.governs (hready : Ready input ⟨rule, levels, h⟩) (rule' : Rule) :
    (Conduct.store input h.depth).Governs 1 (rule'.within input levels) :=
  Conduct.governs_over (Conduct.lenient_store input _)
    (Conduct.governs_operandBy_onceBySite (Nat.le_of_eq hready.depth_add_levels.symm)) rule'

theorem Ready.allows_result (hready : c.Ready input) :
    (Conduct.store input c.head.depth).Allows 1 c.head (c.result input) :=
  hready.governs c.rule c.head hready.holds

theorem Ready.leads_of_result (hready : c.Ready input) (hresult : c.result input = .ok e h₁) :
    c.head.Leads input 1 h₁ := by
  have hallows := hready.allows_result
  rwa [hresult] at hallows

/-- A tier moves on with its first operand, and with every link behind it. -/
theorem Ready.leads_of_run {tier : Tier} {last : Head} {links : List (Operator × Expr)}
    (hready : Ready input ⟨rule, levels, h⟩)
    (hfirst : Call.result input ⟨tier.innerRule, levels, h⟩ = .ok e h₁)
    (hrun : (tier.chain input.scope).Run input (tier.innerRule.within input levels)
      (h₁.logged [.firstOperand tier e]) links last) :
    h.Leads input 1 (h₁.logged [.firstOperand tier e]) ∧
      (h₁.logged [.firstOperand tier e]).Leads input links.length last := by
  have hinner : Ready input ⟨tier.innerRule, levels, h⟩ := ⟨hready.1, hready.2⟩
  have hleads := (hinner.leads_of_result hfirst).logged [.firstOperand tier e]
  exact ⟨hleads, Conduct.moves_of_run (Conduct.lenient_store input _)
    (hready.governs tier.innerRule)
    ((Conduct.store input h.depth).holds_of_moves hready.holds hleads) hrun⟩

/-- The body of an operand calls from heads that it was only moved to. -/
theorem Ready.leads_of_bodyCalls (hready : Ready input ⟨rule, levels, h⟩)
    (hbody : BodyCalls input levels h c) : c.levels = levels ∧ h.Leads input 1 c.head := by
  have hadvanced {h' : Head} {stride : Nat} {token : Token} (hleads : h.Leads input stride h')
      (htoken : input.token? h'.position = some token) : h.Leads input 1 h'.advanced :=
    (hleads.trans ((Conduct.store input h.depth).moves_advanced
      ((Conduct.store input h.depth).holds_of_moves hready.holds hleads) htoken)).mono (by omega)
  have hrefl : h.Leads input 0 h := .refl hready.holds.2.1 hready.holds.2.2
  cases hbody with
  | argument hname hopens => exact ⟨rfl, hadvanced (hadvanced hrefl hname) hopens.2⟩
  | secondArgument hname hopens hfirst hcomma =>
    have hargument := hadvanced (hadvanced hrefl hname) hopens.2
    have hleads := (hready.of_leads hargument .expression).leads_of_result hfirst
    exact ⟨rfl, hadvanced (hargument.trans hleads) hcomma⟩
  | parenthesized hopen => exact ⟨rfl, hadvanced (hrefl.noted _) hopen⟩
  | negated hminus _ =>
    exact ⟨rfl, hadvanced ((((hrefl.noted _).noted _).noted _).noted _) hminus⟩

/-- **A call hands on an orderly head**, which is further on in the text, or stands at the same
place where a rule is called that binds more tightly. -/
theorem Ready.of_calls (hready : c.Ready input) (hcall : Calls input c c') :
    c'.Ready input ∧ Expectation.Within c.head.furthest c'.head.furthest ∧
      (c.head.position < c'.head.position ∨
        c.head.position = c'.head.position ∧ c'.rule.rank < c.rule.rank) := by
  cases hcall with
  | expression levels h => exact ⟨⟨hready.1, hready.2⟩, .refl _, .inr ⟨rfl, Nat.lt_succ_self 3⟩⟩
  | firstOperand tier levels h =>
    exact ⟨⟨hready.1, hready.2⟩, .refl _, .inr ⟨rfl, tier.rank_innerRule_lt⟩⟩
  | @nextOperand tier levels h h₁ last h₀ first links op hfirst hrun hop =>
    obtain ⟨hfirst, hlinks⟩ := hready.leads_of_run hfirst hrun
    have hop := Conduct.moves_of_continuesAt (Conduct.lenient_store input last.depth)
      ⟨rfl, hlinks.orderly, hlinks.settled⟩ hop
    have hleads : h.Leads input 1 h₀ := ((hfirst.trans hlinks).trans hop).mono (by omega)
    exact ⟨hready.of_leads hleads _, hleads.within, .inl hleads.position_add_le⟩
  | @body levels h c' hfresh hlt hbody =>
    have hinner := hready.inBody hfresh hlt
    obtain ⟨rfl, hleads⟩ := hinner.leads_of_bodyCalls hbody
    exact ⟨hinner.of_leads hleads _, hleads.within, .inl hleads.position_add_le⟩

theorem ready_of_reached (hreached : Reached input c) : c.Ready input := by
  induction hreached with
  | refl => exact ready_start input
  | tail _ hcall ih => exact (ih.of_calls hcall).1

theorem Ready.reserve_lt (hready : c.Ready input) (hcall : Calls input c c') :
    c'.reserve input < c.reserve input := by
  obtain ⟨hready', -, horder⟩ := hready.of_calls hcall
  have hle := hready'.holds.2.1.position_le
  have hrank := c'.rule.rank_le
  unfold reserve
  omega

/-- Calls in one another use up the reserve of the outermost one. -/
theorem Ready.length_le {calls : List Call} (hready : c.Ready input)
    (hchain : (c :: calls).IsChain (Calls input)) : calls.length ≤ c.reserve input := by
  induction calls generalizing c with
  | nil => exact Nat.zero_le _
  | cons c' calls ih =>
    obtain ⟨hcall, hchain⟩ := List.isChain_cons_cons.1 hchain
    exact Nat.lt_of_le_of_lt (ih (hready.of_calls hcall).1 hchain) (hready.reserve_lt hcall)

/-- What a call makes of the head, and how many others it can bring about. -/
structure Advances (input : Input) (c : Call) : Prop where
  /-- Where it starts, the position and the stored ends lie within the text, and every stored end
  lies behind its beginning. -/
  orderly : c.head.Orderly input
  /-- The same is true where it stops, whatever it comes to. -/
  orderly_result : (c.result input).head.Orderly input
  depth_result : (c.result input).head.depth = c.head.depth
  position_lt : ∀ e h', c.result input = .ok e h' → c.head.position < h'.position
  /-- The furthest place where something was expected only moves on: up to the end of the call, -/
  reaches_result : ∀ i, Expectation.Reaches c.head.furthest i →
    Expectation.Reaches (c.result input).head.furthest i
  /-- and up to each of the calls that it makes. -/
  reaches_call : ∀ c', Calls input c c' → ∀ i, Expectation.Reaches c.head.furthest i →
    Expectation.Reaches c'.head.furthest i
  /-- The loop of a tier succeeds at most as often as there are tokens left behind its first
  operand. -/
  links_length_le : ∀ (tier : Tier) (first : Expr) (h₁ last : Head)
    (links : List (Operator × Expr)), c.rule = tier.rule →
      Call.result input ⟨tier.innerRule, c.levels, c.head⟩ = .ok first h₁ →
      (tier.chain input.scope).Run input (tier.innerRule.within input c.levels)
        (h₁.logged [.firstOperand tier first]) links last →
        links.length ≤ input.lexemes.size - h₁.position
  /-- So many calls can stand in one another, whatever the limit is. -/
  calls_length_le : ∀ calls : List Call, (c :: calls).IsChain (Calls input) →
    calls.length ≤ 5 * (input.lexemes.size - c.head.position) + 4

/-- **Every parser of the grammar makes progress and leaves the head orderly, wherever it is called
in a parse.** It stops on the level where it started; where it matches, it has read something. No
stored outcome ends where it begins, so that an answer from the store is progress, too, even behind
an operator that is implied and not read. Hence no loop and no recursion goes on for ever, however
deeply operands may be nested. -/
theorem advances_of_reached (hreached : Reached input c) : c.Advances input := by
  have hready := ready_of_reached hreached
  have hgrown := Conduct.grown_of_allows hready.allows_result
  refine
    { orderly := hready.holds.2.1
      orderly_result := hgrown.orderly
      depth_result := ?_
      position_lt := fun e h' hresult ↦ (hready.leads_of_result hresult).position_add_le
      reaches_result := fun i hi ↦ hi.mono hgrown.within
      reaches_call := fun c' hcall i hi ↦ hi.mono (hready.of_calls hcall).2.1
      links_length_le := fun tier first h₁ last links _ hfirst hrun ↦ ?_
      calls_length_le := fun calls hchain ↦
        Nat.le_trans (hready.length_le hchain) (Nat.add_le_add_left c.rule.rank_le _) }
  · have hlevel := Conduct.governs_over (Conduct.lenient_level input c.head.depth)
      (Conduct.governs_level_operandBy input c.levels c.head.depth) c.rule
    exact Conduct.allows_level_iff.1 (hlevel c.head rfl)
  · have hlinks := (hready.leads_of_run hfirst hrun).2
    have hmoved : h₁.position + links.length ≤ last.position := hlinks.position_add_le
    have hlast := hlinks.orderly.position_le
    omega

/-- In `f(x`, the operand `x` is called for twice on one level: as the argument of `f`, and, since
no parenthesis closes the call, within the factor behind `f`. The second time its outcome is
stored. -/
theorem advances_unclosed_argument :
    let input : Input :=
      { lexemes := #[⟨.identifier "f", "f", ⟨0, 1⟩⟩, ⟨.glyph .openParen, "(", ⟨1, 2⟩⟩,
          ⟨.identifier "x", "x", ⟨2, 3⟩⟩]
        length := 3
        scope := { implied := true }
        limit := 2 }
    ∃ c : Call, Reached input c ∧ c.head.site ∈ c.head.operands ∧ c.Advances input := by
  intro input
  have hfacts : (match Call.result input ⟨.exponent, 2, {}⟩ with
      | .ok _ h₁ => decide (h₁.position = 1 ∧ h₁.depth = 0 ∧ (⟨2, 1⟩ : Site) ∈ h₁.operands ∧
          (⟨1, 0⟩ : Site) ∉ h₁.operands)
      | .error _ _ => false) = true := by
    decide +kernel
  rcases hfirst : Call.result input ⟨.exponent, 2, {}⟩ with ⟨first, h₁⟩ | ⟨stop, h₁⟩ <;>
    rw [hfirst] at hfacts
  case error => cases hfacts
  obtain ⟨hposition, hdepth, hstored, hfresh⟩ := of_decide_eq_true hfacts
  have hparen : input.token? h₁.position = some (.glyph .openParen) := by rw [hposition]; rfl
  -- the factor behind `f`, up to the body of the parenthesis
  have hproduct : Reached input ⟨.multiplicative, 2, {}⟩ :=
    (Relation.ReflTransGen.refl.tail (.expression 2 {})).tail (.firstOperand .additive 2 {})
  have hfactor := hproduct.tail (.nextOperand .multiplicative hfirst (.stop _)
    (.implied hparen rfl (fun hminus ↦ by cases hminus) rfl))
  have hsite : h₁.site = ⟨1, 0⟩ := by rw [← hposition, ← hdepth]; rfl
  have hbody := (hfactor.tail (.firstOperand .exponent 2 _)).tail (.body
    (hsite ▸ hfresh : h₁.site ∉ h₁.operands) (hdepth ▸ Nat.zero_lt_two) (.parenthesized hparen))
  have hsecond := (((hbody.tail (.expression 1 _)).tail (.firstOperand .additive 1 _)).tail
    (.firstOperand .multiplicative 1 _)).tail (.firstOperand .exponent 1 _)
  refine ⟨_, hsecond, ?_, advances_of_reached hsecond⟩
  show (⟨h₁.position + 1, h₁.depth + 1⟩ : Site) ∈ h₁.operands
  rw [hposition, hdepth]
  exact hstored

end Call

end Formulae
